import Lwip.Pbuf.Copy

/-!
# A copy in one pbuf

`pbuf_copy` to a pbuf that `pbuf_alloc` has just made as a `PBUF_RAM`, seen through the bytes of the
pbufs alone: for the code that copies a packet and does not care where its pbufs are. `pbufCopy_eq`
says that this is what `pbuf_copy` does with the pbufs in memory. With room for just the bytes of
the packet, the copy is made when every pbuf is the last one or has a byte behind it (`OnePacket`),
and otherwise an assertion fails (`copyNew_eq_ok`).
-/

namespace Lwip.Pbuf

/-- Don't copy more than one packet! -/
def checkNext : List (List UInt8) → Except Abort Unit
  | [] => .ok ()
  | p :: next => lwipAssert .copyQueue (p.length = (p :: next).flatten.length → next = [])

/-- The loop of `pbuf_copy` to a single pbuf, in which `done` is written and `room` bytes are left.
With `none`, `p_to` is `NULL`. -/
def copyNewLoop : Option ℕ → List UInt8 → List (List UInt8) → Except Abort (List UInt8)
  | _, done, [] => .ok done
  | none, _, _ :: _ => .error .copyTo
  | some room, done, p_from :: next =>
    if p_from.length ≤ room then do
      checkNext next
      -- on to next p_to (if any)
      let p_to := if room = p_from.length then none else some (room - p_from.length)
      copyNewLoop p_to (done ++ p_from) next
    else do
      -- `p_to` is full, and there is none behind it for the rest of `p_from`
      checkNext (p_from :: next)
      .error .copyTo

/-- `pbuf_copy` to a single pbuf of `len` bytes: what is written there. -/
def copyNew (len : ℕ) (p_from : List (List UInt8)) : Except Abort (List UInt8) := do
  lwipAssert .copyTarget (len ≥ p_from.flatten.length)
  copyNewLoop (some len) [] p_from

/-! ## When the copy is made -/

/-- Behind every pbuf there is either no pbuf or a byte. -/
def OnePacket : List (List UInt8) → Prop
  | [] => True
  | _ :: next => (next = [] ∨ next.flatten ≠ []) ∧ OnePacket next

instance OnePacket.decidable : (l : List (List UInt8)) → Decidable (OnePacket l)
  | [] => .isTrue trivial
  | _ :: next =>
    have := OnePacket.decidable next
    inferInstanceAs (Decidable ((next = [] ∨ next.flatten ≠ []) ∧ OnePacket next))

section Bytes

variable {done r p_from : List UInt8} {next l : List (List UInt8)} {len : ℕ}

/-- The check against packet queues. -/
theorem checkNext_eq_ok {u : Unit} :
    checkNext (p_from :: next) = .ok u ↔ next = [] ∨ next.flatten ≠ [] := by
  rw [checkNext, lwipAssert_eq_ok, List.flatten_cons, List.length_append, ← List.length_pos_iff]
  by_cases hnext : next = []
  · exact iff_of_true (fun _ => hnext) (.inl hnext)
  · simp only [hnext, imp_false, false_or]
    omega

/-- In one packet, a pbuf that another one follows has a byte behind it. -/
theorem OnePacket.checkNext (h : OnePacket l) : checkNext l = .ok () := by
  cases l with
  | nil => rfl
  | cons p next => exact checkNext_eq_ok.mpr h.1

/-- The loop with room for just what is left. -/
theorem copyNewLoop_eq_ok :
    copyNewLoop (some (p_from :: next).flatten.length) done (p_from :: next) = .ok r ↔
      OnePacket (p_from :: next) ∧ r = done ++ (p_from :: next).flatten := by
  induction next generalizing p_from done with
  | nil =>
    unfold copyNewLoop
    rw [if_pos (by simp), checkNext]
    simp only [bind, Except.bind, copyNewLoop, OnePacket, List.flatten_cons, List.flatten_nil,
      List.append_nil, Except.ok.injEq, true_or, and_self, true_and]
    exact eq_comm
  | cons q rest ih =>
    have hlen : (p_from :: q :: rest).flatten.length =
        p_from.length + (q :: rest).flatten.length := by
      rw [List.flatten_cons, List.length_append]
    have hleft : (p_from :: q :: rest).flatten.length - p_from.length =
        (q :: rest).flatten.length := by omega
    rw [copyNewLoop, if_pos (by omega), hleft]
    constructor
    · intro h
      obtain ⟨-, -, h⟩ := bind_eq_ok.mp h
      -- Without a byte behind this pbuf, `p_to` is `NULL` now.
      by_cases hfull : (p_from :: q :: rest).flatten.length = p_from.length
      · simp only [if_pos hfull] at h
        cases h
      · simp only [if_neg hfull] at h
        obtain ⟨hone, hr⟩ := ih.mp h
        refine ⟨⟨.inr fun hnil => ?_, hone⟩, ?_⟩
        · rw [hnil] at hlen
          exact hfull hlen
        · rw [hr, List.append_assoc, List.flatten_cons (l := p_from)]
    · rintro ⟨⟨hbyte, hone⟩, hr⟩
      have hpos := List.length_pos_iff.mpr (hbyte.resolve_left (List.cons_ne_nil _ _))
      have hfull : (p_from :: q :: rest).flatten.length ≠ p_from.length := by omega
      rw [hone.checkNext]
      simp only [bind, Except.bind, if_neg hfull]
      exact ih.mpr ⟨hone, by rw [hr, List.append_assoc, List.flatten_cons (l := p_from)]⟩

/-- A copy to a pbuf with room for just the bytes of the packet. -/
theorem copyNew_eq_ok (hl : l ≠ []) :
    copyNew l.flatten.length l = .ok r ↔ OnePacket l ∧ r = l.flatten := by
  cases l with
  | nil => exact absurd rfl hl
  | cons p next =>
    rw [copyNew, (lwipAssert_eq_ok (u := ())).mpr (Nat.le_refl _)]
    exact copyNewLoop_eq_ok

/-- What is copied, wherever there is room. -/
theorem copyNewLoop_result {p_to : Option ℕ} (h : copyNewLoop p_to done l = .ok r) :
    r = done ++ l.flatten := by
  induction l generalizing p_to done with
  | nil =>
    unfold copyNewLoop at h
    cases h
    exact (List.append_nil _).symm
  | cons p next ih =>
    cases p_to with
    | none => cases h
    | some room =>
      unfold copyNewLoop at h
      split at h
      · obtain ⟨-, -, h⟩ := bind_eq_ok.mp h
        rw [ih h, List.flatten_cons, List.append_assoc]
      · obtain ⟨-, -, h⟩ := bind_eq_ok.mp h
        cases h

/-- A copy that comes to an end holds all bytes. -/
theorem copyNew_result (h : copyNew len l = .ok r) : r = l.flatten := by
  obtain ⟨-, -, h⟩ := bind_eq_ok.mp h
  exact copyNewLoop_result h

end Bytes

/-! ## The pbufs in memory -/

section Memory

variable {s : Heap} {t p : ℕ} {tb : Pbuf} {r : Option ℕ} {l : List ℕ}

/-- A chain has no pbufs only where the pointer to it is `NULL`. -/
theorem ChainAt.map_eq_nil {β : Type*} (h : ChainAt s r l) (f : ℕ → β) :
    l.map f = [] ↔ r = none := by
  cases h <;> simp

/-- The bytes of a chain. -/
theorem Heap.flatten_map_bytesOf (s : Heap) (l : List ℕ) :
    (l.map s.bytesOf).flatten = s.packet l := by
  rw [Heap.packet, List.flatMap_def]

/-- The check of a chain is that of its bytes. -/
theorem checkQueue_eq (h : ChainAt s r l) : checkQueue s r = checkNext (l.map s.bytesOf) := by
  have htot := h.totOf_eq
  cases h with
  | nil => rfl
  | @cons p b l hb _ _ ht =>
    have hlen : ((p :: l).map s.bytesOf).flatten.length = b.tot_len := by
      rw [Heap.flatten_map_bytesOf, ← htot, Heap.totOf_some hb]
    rw [checkQueue, Heap.get_eq_ok.mpr hb, List.map_cons, checkNext]
    dsimp only [bind, Except.bind]
    apply lwipAssert_congr
    rw [← List.map_cons, hlen, ht.map_eq_nil, Heap.bytesOf_eq hb, Pbuf.length_bytes]

/-- The check of the last pbuf of a chain, or of none. -/
theorem checkQueue_last (ht : s.pbufs t = some tb) (hlast : tb.next = none) (o n : ℕ) :
    checkQueue s (if o = n then (none, 0) else (some t, o)).1 = .ok () := by
  split
  · rfl
  · rw [checkQueue, Heap.get_eq_ok.mpr ht]
    exact lwipAssert_eq_ok.mpr fun _ => hlast

/-- What is copied to `t` leaves the pbufs of a chain without `t` as they were. -/
theorem ChainAt.set_other (hc : ChainAt s r l) (ht : s.pbufs t = some tb) (hne : t ∉ l) {o n : ℕ}
    (hn : o + n ≤ tb.len) (src : ℕ → UInt8) :
    ChainAt (s.set t (tb.write (tb.payload + o) n src)) r l ∧
      l.map (s.set t (tb.write (tb.payload + o) n src)).bytesOf = l.map s.bytesOf := by
  refine ⟨(Written.write ht (List.mem_singleton_self t) hn src).chainAt hc, ?_⟩
  refine List.map_congr_left fun i hi => ?_
  have hit : i ≠ t := fun h => hne (h ▸ hi)
  rw [Heap.bytesOf, Heap.bytesOf, Heap.set_of_ne s hit]

/-- The loop in memory, to a pbuf that is the last one of its chain, does what the loop on the bytes
does. -/
theorem pbufCopyLoop_eq {fuel offset_to : ℕ} (hf : ChainAt s (some p) l) (ht : s.pbufs t = some tb)
    (hlast : tb.next = none) (hne : t ∉ l) (hto : offset_to ≤ tb.len) (hfuel : l.length < fuel) :
    (pbufCopyLoop fuel s (some t) offset_to p 0).map
        (fun s' => (s'.bytesOf t).take (offset_to + (s.packet l).length)) =
      copyNewLoop (some (tb.len - offset_to)) (tb.bytes.take offset_to) (l.map s.bytesOf) := by
  induction fuel generalizing s p l offset_to tb with
  | zero => exact absurd hfuel (Nat.not_lt_zero _)
  | succ fuel ih =>
    obtain ⟨fb, l', hfb, rfl, -, hrest⟩ := hf.head
    rw [List.length_cons] at hfuel
    have hbytes : s.bytesOf p = fb.bytes := Heap.bytesOf_eq hfb
    rw [List.map_cons, copyNewLoop, hbytes, Pbuf.length_bytes]
    unfold pbufCopyLoop
    rw [Heap.get_eq_ok.mpr ht]
    dsimp only [bind, Except.bind]
    rw [Heap.get_eq_ok.mpr hfb]
    simp only [Nat.sub_zero, Nat.add_zero, Nat.zero_add, ge_iff_le, hlast]
    by_cases hfit : fb.len ≤ tb.len - offset_to
    · simp only [hfit, if_true, le_refl]
      set s₁ := s.set t (tb.write (tb.payload + offset_to) fb.len fun k => fb.mem (fb.payload + k))
        with hs₁
      have ht₁ : s₁.pbufs t = some (tb.write (tb.payload + offset_to) fb.len
          fun k => fb.mem (fb.payload + k)) := Heap.set_self ..
      rw [(lwipAssert_eq_ok (u := ())).mpr (show offset_to + fb.len ≤ tb.len by omega)]
      dsimp only
      rw [(lwipAssert_eq_ok (u := ())).mpr trivial]
      dsimp only
      obtain ⟨hchain, hsame⟩ := hrest.set_other ht (fun h => hne (List.mem_cons_of_mem _ h))
        (show offset_to + fb.len ≤ tb.len by omega) fun k => fb.mem (fb.payload + k)
      rw [checkQueue_eq hchain, hsame]
      -- The bytes of the first pbuf are behind what was written before.
      have hdone : (tb.write (tb.payload + offset_to) fb.len fun k =>
        fb.mem (fb.payload + k)).bytes.take
          (offset_to + fb.len) = tb.bytes.take offset_to ++ fb.bytes := by
        have htake := take_overlay (show offset_to + fb.bytes.length ≤ tb.bytes.length by
          rw [Pbuf.length_bytes, Pbuf.length_bytes]
          omega)
        rw [fb.length_bytes] at htake
        rw [Pbuf.bytes_write tb (by omega)]
        exact htake
      have hpacket : (s.packet (p :: l')).length = fb.len + (s.packet l').length := by
        rw [Heap.packet_cons hfb, List.length_append, Pbuf.length_bytes]
      cases checkNext (l'.map s.bytesOf) with
      | error a => rfl
      | ok u =>
        dsimp only
        rw [checkQueue_last ht₁ hlast]
        dsimp only
        cases hq : fb.next with
        | none =>
          rw [hq] at hrest
          cases hrest
          have hend : ∀ p_to done, copyNewLoop p_to done [] = .ok done := by
            intro p_to done
            cases p_to <;> rfl
          rw [List.map_nil, hend, ← hdone, hpacket]
          simp only [Except.map, Heap.bytesOf_eq ht₁, Heap.packet, List.flatMap_nil,
            List.length_nil, Nat.add_zero]
        | some q =>
          rw [hq] at hrest hchain
          by_cases hfull : offset_to + fb.len = tb.len
          · -- `p_to` is `NULL`, and there is another pbuf.
            obtain ⟨c, l'', -, rfl, -⟩ := hrest.head
            rw [if_pos hfull, if_pos (show tb.len - offset_to = fb.len by omega)]
            cases fuel with
            | zero => exact absurd hfuel (by omega)
            | succ fuel => rfl
          · rw [if_neg hfull, if_neg (show tb.len - offset_to ≠ fb.len by omega)]
            have hmore := ih hchain ht₁ hlast (fun h => hne (List.mem_cons_of_mem _ h))
              (show offset_to + fb.len ≤ tb.len by omega) (by omega)
            rw [← Heap.flatten_map_bytesOf, hsame, Heap.flatten_map_bytesOf, hdone] at hmore
            have hleft : tb.len - offset_to - fb.len = tb.len - (offset_to + fb.len) := by omega
            rw [hleft, hpacket, ← Nat.add_assoc]
            exact hmore
    · -- The first pbuf does not fit, and there is no pbuf behind `t` for its rest.
      simp only [hfit, if_false]
      have hround : offset_to + (tb.len - offset_to) = tb.len := by omega
      obtain ⟨hchain, hsame⟩ := hf.set_other ht hne (Nat.le_of_eq hround) fun k =>
        fb.mem (fb.payload + k)
      rw [(lwipAssert_eq_ok (u := ())).mpr (Nat.le_of_eq hround)]
      dsimp only
      rw [(lwipAssert_eq_ok (u := ())).mpr (show tb.len - offset_to ≤ fb.len by omega)]
      dsimp only
      rw [checkQueue_eq hchain, hsame, List.map_cons, hbytes]
      cases checkNext (fb.bytes :: l'.map s.bytesOf) with
      | error a => rfl
      | ok u =>
        dsimp only
        rw [if_pos hround]
        cases fuel with
        | zero => exact absurd hfuel (by omega)
        | succ fuel => rfl

/-- `pbuf_copy` to a new pbuf `nb` writes there what `copyNew` says, and fails where that fails. -/
theorem pbufCopy_eq {nb : Pbuf} (hf : ChainAt s (some p) l) (hlast : nb.next = none)
    (hlen : nb.len = nb.tot_len) :
    (pbufCopy (s.add nb) s.fresh p).map
        (fun s' => (s'.bytesOf s.fresh).take (s.packet l).length) =
      copyNew nb.len (l.map s.bytesOf) := by
  have hold : ∀ i ∈ l, (s.add nb).pbufs i = s.pbufs i :=
    fun i hi => Heap.add_of_ne s (Nat.ne_of_lt (hf.lt_fresh i hi)) nb
  have hnew : (s.add nb).pbufs s.fresh = some nb := Heap.add_self s nb
  have hchain : ChainAt (s.add nb) (some p) l := hf.congr hold (Nat.le_succ _)
  have hsame : l.map (s.add nb).bytesOf = l.map s.bytesOf :=
    List.map_congr_left fun i hi => by rw [Heap.bytesOf, Heap.bytesOf, hold i hi]
  have hpacket : (s.add nb).packet l = s.packet l := by
    rw [← Heap.flatten_map_bytesOf, hsame, Heap.flatten_map_bytesOf]
  obtain ⟨fb, l', hfb, rfl, -⟩ := hchain.head
  have htot : fb.tot_len = (s.packet (p :: l')).length := by
    rw [← hpacket, ← hchain.totOf_eq, Heap.totOf_some hfb]
  unfold pbufCopy copyNew
  rw [Heap.get_eq_ok.mpr hnew]
  dsimp only [bind, Except.bind]
  rw [Heap.get_eq_ok.mpr hfb]
  dsimp only
  rw [Heap.flatten_map_bytesOf, ← htot, ← hlen]
  by_cases hroom : nb.len ≥ fb.tot_len
  · have hne : s.fresh ∉ p :: l' := fun h => Nat.lt_irrefl _ (hf.lt_fresh _ h)
    have hfuel : (p :: l').length < 2 * (s.add nb).fresh + 2 := by
      have hle := hchain.length_le
      omega
    have hrun := pbufCopyLoop_eq hchain hnew hlast hne (Nat.zero_le _) hfuel
    rw [(lwipAssert_eq_ok (u := ())).mpr hroom]
    rw [hsame, hpacket, ← htot, Nat.zero_add] at hrun
    exact hrun
  · rw [lwipAssert, if_neg hroom]
    rfl

end Memory

end Lwip.Pbuf
