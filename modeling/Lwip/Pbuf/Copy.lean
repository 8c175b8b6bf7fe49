import Lwip.Lib.Overlay
import Lwip.Pbuf.Realloc
import Mathlib.Data.List.GetD

/-!
# Copies of packets

`pbuf_copy`, `pbuf_copy_partial` and `pbuf_take`. The two functions that deal with an application's
buffer are translated here: the buffer is what `dataptr` points to, a function from offsets to
bytes.

A chain is cut into pbufs anywhere, and there may be empty ones (`ChainAt`). Such a chain is one
packet for `pbuf_copy` when only its last pbuf has `len == tot_len` (`SinglePacket`), as the
description of packet queues in `pbuf.c` has it. An empty pbuf behind the last byte is a packet of
its own then.
-/

namespace Lwip.Pbuf

/-! ## The buffer of an application -/

/-- `MEMCPY` to `&dataptr[left]`: `len` bytes of `src`. -/
def copyTo (dataptr : ℕ → UInt8) (left len : ℕ) (src : ℕ → UInt8) : ℕ → UInt8 :=
  fun k => if left ≤ k ∧ k < left + len then src (k - left) else dataptr k

/-- The loop of `pbuf_copy_partial`. `left` and `copied_total` are equal. -/
def pbufCopyPartialLoop (s : Heap) :
    ℕ → Option ℕ → (ℕ → UInt8) → ℕ → ℕ → ℕ → Except Abort ((ℕ → UInt8) × ℕ)
  | 0, _, _, _, _, _ => .error .hang
  | fuel + 1, p, dataptr, len, offset, left =>
    match p with
    | none => .ok (dataptr, left)
    | some p =>
      if len = 0 then .ok (dataptr, left)
      else do
        let b ← s.get p
        if offset ≠ 0 ∧ offset ≥ b.len then
          -- don't copy from this buffer -> on to the next
          pbufCopyPartialLoop s fuel b.next dataptr len (offset - b.len) left
        else
          let buf_copy_len := if b.len - offset > len then len else b.len - offset
          pbufCopyPartialLoop s fuel b.next
            (copyTo dataptr left buf_copy_len fun k => b.mem (b.payload + offset + k))
            (len - buf_copy_len) 0 (left + buf_copy_len)

/-- `pbuf_copy_partial`: the new content of the buffer, and the number of bytes copied. -/
def pbufCopyPartial (s : Heap) (buf : ℕ) (dataptr : ℕ → UInt8) (len offset : ℕ) :
    Except Abort ((ℕ → UInt8) × ℕ) :=
  pbufCopyPartialLoop s (s.fresh + 1) (some buf) dataptr len offset 0

/-- The assertions of `pbuf_take`. -/
inductive TakeAbort where
  /-- A pbuf is read that is not allocated, or the loop does not come to an end. -/
  | pbuf (a : Abort)
  /-- `pbuf_take: invalid pbuf` -/
  | invalidPbuf
  /-- `did not copy all data` -/
  | notAll
  deriving DecidableEq, Repr

/-- What `pbuf_take` returns. -/
inductive TakeErr where
  | ERR_OK | ERR_ARG
  deriving DecidableEq, Repr

/-- The loop of `pbuf_take`: the number of bytes that were copied is returned too. -/
def pbufTakeLoop (dataptr : ℕ → UInt8) :
    ℕ → Heap → Option ℕ → ℕ → ℕ → Except TakeAbort (Heap × ℕ)
  | 0, _, _, _, _ => .error (.pbuf .hang)
  | fuel + 1, s, p, total_copy_len, copied_total =>
    if total_copy_len = 0 then .ok (s, copied_total)
    else match p with
      | none => .error .invalidPbuf
      | some p => do
        let b ← (s.get p).mapError .pbuf
        -- this pbuf cannot hold all remaining data?
        let buf_copy_len := if total_copy_len > b.len then b.len else total_copy_len
        pbufTakeLoop dataptr fuel
          (s.set p (b.write b.payload buf_copy_len fun k => dataptr (copied_total + k)))
          b.next (total_copy_len - buf_copy_len) (copied_total + buf_copy_len)

/-- `pbuf_take`. -/
def pbufTake (s : Heap) (buf : ℕ) (dataptr : ℕ → UInt8) (len : ℕ) :
    Except TakeAbort (Heap × TakeErr) := do
  let b ← (s.get buf).mapError .pbuf
  if b.tot_len < len then .ok (s, .ERR_ARG)
  else do
    let (s, copied_total) ← pbufTakeLoop dataptr (s.fresh + 1) s (some buf) len 0
    lwipAssert .notAll (copied_total = len)
    .ok (s, .ERR_OK)

/-! ## Chains -/

/-- `l` are the pbufs of the chain from `r` on. They are allocated, and `tot_len` of each is the
number of bytes in it and in those behind it. -/
inductive ChainAt (s : Heap) : Option ℕ → List ℕ → Prop where
  | nil : ChainAt s none []
  | cons {p : ℕ} {b : Pbuf} {l : List ℕ} : s.pbufs p = some b → p < s.fresh →
      b.tot_len = b.len + s.totOf b.next → ChainAt s b.next l → ChainAt s (some p) (p :: l)

/-- Only the last pbuf of the chain has `len == tot_len`. -/
def SinglePacket (s : Heap) (l : List ℕ) : Prop :=
  ∀ p ∈ l, ∀ b, s.pbufs p = some b → b.len = b.tot_len → b.next = none

section Chains

variable {s s' s'' : Heap} {p q i o : ℕ} {b c : Pbuf} {r : Option ℕ} {l l' pre : List ℕ}

/-- The bytes of the first pbuf and of the rest. -/
theorem Heap.packet_cons (hb : s.pbufs p = some b) (l : List ℕ) :
    s.packet (p :: l) = b.bytes ++ s.packet l := by
  simp [Heap.packet, Heap.bytesOf_eq hb]

/-- The bytes of two chains. -/
theorem Heap.packet_append (s : Heap) (l l' : List ℕ) :
    s.packet (l ++ l') = s.packet l ++ s.packet l' :=
  List.flatMap_append

namespace ChainAt

/-- A chain is a walk along the links. -/
theorem walk (h : ChainAt s r l) : Walk s.succ r l := by
  induction h with
  | nil => exact .nil
  | cons hb _ _ _ ih => exact .cons (by rwa [Heap.succ_eq hb])

/-- No pbuf is in a chain twice. -/
theorem nodup (h : ChainAt s r l) : l.Nodup := h.walk.nodup

/-- The pbufs of a chain are allocated. -/
theorem lt_fresh (h : ChainAt s r l) : ∀ i ∈ l, i < s.fresh := by
  induction h with
  | nil => exact fun i hi => by cases hi
  | cons _ hp _ _ ih =>
    intro i hi
    rcases List.mem_cons.mp hi with rfl | hi
    · exact hp
    · exact ih i hi

/-- The loops have rounds enough. -/
theorem length_le (h : ChainAt s r l) : l.length ≤ s.fresh := by
  have hsub : l ⊆ List.range s.fresh := fun i hi => List.mem_range.mpr (h.lt_fresh i hi)
  simpa using (h.nodup.subperm hsub).length_le

/-- `tot_len` is the length of the packet. -/
theorem totOf_eq (h : ChainAt s r l) : s.totOf r = (s.packet l).length := by
  induction h with
  | nil => rfl
  | @cons p b l hb _ htot _ ih =>
    rw [Heap.totOf_some hb, htot, Heap.packet_cons hb, List.length_append, Pbuf.length_bytes, ih]

/-- The first pbuf of a chain, and the rest. -/
theorem head (h : ChainAt s (some p) l) : ∃ b l', s.pbufs p = some b ∧ l = p :: l' ∧
    b.tot_len = b.len + s.totOf b.next ∧ ChainAt s b.next l' := by
  cases h with
  | cons hb _ htot ht => exact ⟨_, _, hb, rfl, htot, ht⟩

/-- A chain whose pbufs are the same. -/
theorem congr (h : ChainAt s r l) (hsame : ∀ i ∈ l, s'.pbufs i = s.pbufs i)
    (hfresh : s.fresh ≤ s'.fresh) : ChainAt s' r l := by
  induction h with
  | nil => exact .nil
  | @cons p b l hb hp htot ht ih =>
    have htail := ih fun i hi => hsame i (List.mem_cons_of_mem p hi)
    refine .cons ((hsame p List.mem_cons_self).trans hb) (Nat.lt_of_lt_of_le hp hfresh) ?_ htail
    cases hn : b.next with
    | none => rwa [hn] at htot
    | some q =>
      obtain ⟨c, lq, hq, rfl, -⟩ := (hn ▸ ht).head
      rw [hn, Heap.totOf_some hq] at htot
      rw [Heap.totOf_some ((hsame q (by simp)).trans hq), htot]

end ChainAt

/-! ## Bytes that are written -/

/-- Only bytes in the payloads of the pbufs of `l` changed. -/
structure Written (l : List ℕ) (s s' : Heap) : Prop where
  fresh : s'.fresh = s.fresh
  dead : ∀ i, s.pbufs i = none → s'.pbufs i = none
  live : ∀ i b, s.pbufs i = some b → ∃ m, s'.pbufs i = some { b with mem := m } ∧
    (i ∉ l → m = b.mem) ∧ ∀ k, (k < b.payload ∨ b.payload + b.len ≤ k) → m k = b.mem k

namespace Written

/-- Nothing was written. -/
theorem refl (l : List ℕ) (s : Heap) : Written l s s :=
  ⟨rfl, fun _ h => h, fun _ b h => ⟨b.mem, h, fun _ => rfl, fun _ _ => rfl⟩⟩

/-- What is written in two steps. -/
theorem trans (h : Written l s s') (h' : Written l s' s'') : Written l s s'' := by
  refine ⟨h'.fresh.trans h.fresh, fun i hi => h'.dead i (h.dead i hi), fun i b hb => ?_⟩
  obtain ⟨m, hm, hl, hout⟩ := h.live i b hb
  obtain ⟨m', hm', hl', hout'⟩ := h'.live i _ hm
  exact ⟨m', hm', fun hi => (hl' hi).trans (hl hi), fun k hk => (hout' k hk).trans (hout k hk)⟩

/-- What is written to a part of the pbufs is written to them. -/
theorem mono (h : Written l s s') (hl : ∀ i ∈ l, i ∈ l') : Written l' s s' := by
  refine ⟨h.fresh, h.dead, fun i b hb => ?_⟩
  obtain ⟨m, hm, hsame, hout⟩ := h.live i b hb
  exact ⟨m, hm, fun hi => hsame fun hil => hi (hl i hil), hout⟩

/-- A `MEMCPY` into the payload of `p`. -/
theorem write (hb : s.pbufs p = some b) (hp : p ∈ l) {len : ℕ} (ho : o + len ≤ b.len)
    (src : ℕ → UInt8) : Written l s (s.set p (b.write (b.payload + o) len src)) := by
  refine ⟨rfl, fun i hi => ?_, fun i c hc => ?_⟩
  · have hip : i ≠ p := fun hip => by rw [hip, hb] at hi; cases hi
    rwa [Heap.set_of_ne s hip]
  · by_cases hip : i = p
    · rw [hip] at hc
      obtain rfl := Option.some.inj (hb.symm.trans hc)
      rw [hip, Heap.set_self]
      exact ⟨_, rfl, fun hpl => absurd hp hpl, fun k hk => if_neg (by omega)⟩
    · exact ⟨c.mem, (Heap.set_of_ne s hip _).trans hc, fun _ => rfl, fun _ _ => rfl⟩

/-- A write does not change a `tot_len`. -/
theorem totOf (h : Written l s s') (r : Option ℕ) : s'.totOf r = s.totOf r := by
  cases r with
  | none => rfl
  | some q =>
    cases hq : s.pbufs q with
    | none => simp only [Heap.totOf, hq, h.dead q hq]
    | some b =>
      obtain ⟨m, hm, -⟩ := h.live q b hq
      rw [Heap.totOf_some hm, Heap.totOf_some hq]

/-- A write does not change a chain. -/
theorem chainAt (h : Written l s s') (hc : ChainAt s r l') : ChainAt s' r l' := by
  induction hc with
  | nil => exact .nil
  | cons hb hp htot _ ih =>
    obtain ⟨m, hm, -⟩ := h.live _ _ hb
    exact .cons hm (by rwa [h.fresh]) (by rwa [h.totOf]) ih

/-- A write does not make a packet queue. -/
theorem singlePacket (h : Written l s s') (hl : SinglePacket s l') : SinglePacket s' l' := by
  intro p hp b' hb' hlen
  cases hb : s.pbufs p with
  | none => rw [h.dead p hb] at hb'; cases hb'
  | some b =>
    obtain ⟨m, hm, -⟩ := h.live p b hb
    obtain rfl := Option.some.inj (hm.symm.trans hb')
    exact hl p hp b hb hlen

/-- The packet of other pbufs is as it was. -/
theorem packet_eq (h : Written l s s') (hl : ∀ i ∈ l', i ∉ l) : s'.packet l' = s.packet l' := by
  refine List.flatMap_congr fun i hi => ?_
  cases hb : s.pbufs i with
  | none => rw [Heap.bytesOf, Heap.bytesOf, hb, h.dead i hb]
  | some b =>
    obtain ⟨m, hm, hsame, -⟩ := h.live i b hb
    rw [Heap.bytesOf_eq hm, Heap.bytesOf_eq hb, hsame (hl i hi)]

end Written

/-- The payload after a `MEMCPY` into it. -/
theorem bytes_write {len : ℕ} (b : Pbuf) (h : o + len ≤ b.len) (src : ℕ → UInt8) :
    (b.write (b.payload + o) len src).bytes = overlay b.bytes o ((List.range len).map src) := by
  refine List.ext_getElem? fun k => ?_
  rw [getElem?_overlay (by simpa [Pbuf.length_bytes] using h), List.length_map, List.length_range]
  by_cases hk : o ≤ k ∧ k < o + len
  · have hpiece : b.payload + k - (b.payload + o) = k - o := by omega
    rw [if_pos hk]
    simp only [Pbuf.bytes, Pbuf.write, List.getElem?_map]
    rw [List.getElem?_range (by omega), List.getElem?_range (by omega), Option.map_some,
      Option.map_some, if_pos (by omega), hpiece]
  · rw [if_neg hk]
    simp only [Pbuf.bytes, Pbuf.write, List.getElem?_map]
    by_cases hlen : k < b.len
    · rw [List.getElem?_range hlen, Option.map_some, Option.map_some, if_neg (by omega)]
    · rw [List.getElem?_eq_none (by simpa [Pbuf.length_bytes] using hlen)]
      rfl

/-- `len` bytes of a payload, from the place `o` on. -/
theorem map_range {len : ℕ} (b : Pbuf) (h : o + len ≤ b.len) :
    ((List.range len).map fun k => b.mem (b.payload + o + k)) = (b.bytes.drop o).take len := by
  refine List.ext_getElem (by simp [Pbuf.length_bytes]; omega) fun k hk hk' => ?_
  simp only [Pbuf.bytes, List.getElem_map, List.getElem_range, List.getElem_take, List.getElem_drop,
    Nat.add_assoc]

/-- `MEMCPY` changes the packet of a chain in the first pbuf. -/
theorem packet_write {n : ℕ} (hb : s.pbufs p = some b) (hc : ChainAt s (some p) l)
    (h : o + n ≤ b.len) (src : ℕ → UInt8) : (s.set p (b.write (b.payload + o) n src)).packet l =
      overlay (s.packet l) o ((List.range n).map src) := by
  have hnodup := hc.nodup
  obtain ⟨b', l', hb', rfl, -, -⟩ := hc.head
  obtain rfl := Option.some.inj (hb.symm.trans hb')
  have hrest : (s.set p (b.write (b.payload + o) n src)).packet l' = s.packet l' := by
    refine (Written.write hb (List.mem_singleton_self p) h src).packet_eq fun i hi hip => ?_
    rw [List.mem_singleton.mp hip] at hi
    exact (List.nodup_cons.mp hnodup).1 hi
  rw [Heap.packet_cons (Heap.set_self ..), hrest, Heap.packet_cons hb, Pbuf.bytes_write b h,
    overlay_append (by simpa [Pbuf.length_bytes] using h)]

/-! ## `pbuf_copy` -/

/-- Where a copy goes on in the chain `l` when `o` bytes of its first pbuf are done: behind the
pbufs of `pre`, with `o'` bytes of the chain `l'` from `r` on that are done. -/
structure Advanced (s : Heap) (l : List ℕ) (o : ℕ) (r : Option ℕ) (o' : ℕ) (pre l' : List ℕ) :
    Prop where
  split : l = pre ++ l'
  chain : ChainAt s r l'
  offset : (s.packet pre).length + o' = o
  within : ∀ q, r = some q → ∃ c, s.pbufs q = some c ∧ o' ≤ c.len
  more : SinglePacket s l → ∀ q, r = some q → o' < (s.packet l').length

namespace Advanced

/-- The place behind what was copied is in this pbuf or at the next one. -/
theorem next (h : ChainAt s (some p) l) (hb : s.pbufs p = some b) (ho : o ≤ b.len) :
    ∃ pre l', Advanced s l o (if o = b.len then (b.next, 0) else (some p, o)).1
        (if o = b.len then (b.next, 0) else (some p, o)).2 pre l' ∧
      l'.length + (if o = b.len then 1 else 0) = l.length := by
  obtain ⟨b', l', hb', rfl, htot, ht⟩ := h.head
  obtain rfl := Option.some.inj (hb.symm.trans hb')
  by_cases hdone : o = b.len
  · rw [if_pos hdone, if_pos hdone]
    refine ⟨[p], l', ⟨rfl, ht, ?_, fun q hq => ?_, fun hs q hq => ?_⟩, rfl⟩
    · rw [Heap.packet_cons hb]
      simpa [Heap.packet, Pbuf.length_bytes] using hdone.symm
    · rw [show b.next = some q from hq] at ht
      obtain ⟨c, -, hc, -⟩ := ht.head
      exact ⟨c, hc, Nat.zero_le _⟩
    · -- This pbuf is not the last one, so there are bytes behind it.
      have hmore : b.len ≠ b.tot_len := fun hlen => by
        cases (hs p List.mem_cons_self b hb hlen).symm.trans hq
      rw [← ht.totOf_eq]
      omega
  · rw [if_neg hdone, if_neg hdone]
    refine ⟨[], p :: l', ⟨rfl, h, ?_, fun q hq => ?_, fun _ q _ => ?_⟩, rfl⟩
    · simp [Heap.packet]
    · obtain rfl := Option.some.inj hq
      exact ⟨b, hb, ho⟩
    · rw [Heap.packet_cons hb, List.length_append, Pbuf.length_bytes]
      show o < _
      omega

variable {r' : Option ℕ} {o' : ℕ}

/-- What is left to be copied from a chain. -/
theorem drop (h : Advanced s l o r o' pre l') : (s.packet l).drop o = (s.packet l').drop o' := by
  rw [h.split, Heap.packet_append, ← h.offset, List.drop_length_add_append]

/-- A piece that is copied to the rest of a chain is copied to the chain. -/
theorem overlay_eq {a : List UInt8} (h : Advanced s l o r o' pre l') (hl : l.Nodup)
    (hw : Written l' s s')
    (hs' : s'.packet l' = overlay (s.packet l') o' a) : s'.packet l = overlay (s.packet l) o a := by
  have hpre : s'.packet pre = s.packet pre := by
    refine hw.packet_eq fun i hi hil => ?_
    rw [h.split] at hl
    exact List.disjoint_of_nodup_append hl hi hil
  rw [h.split, Heap.packet_append, Heap.packet_append, hpre, hs', ← h.offset, append_overlay]

/-- The test for packet queues passes in one packet. -/
theorem checkQueue (h : Advanced s l o r o' pre l') (hs : SinglePacket s l) :
    checkQueue s r = .ok () := by
  cases r with
  | none => rfl
  | some q =>
    obtain ⟨c, l'', hc, hl', -, -⟩ := h.chain.head
    have hq : q ∈ l := by
      rw [h.split, hl']
      simp
    unfold Lwip.Pbuf.checkQueue
    dsimp only
    rw [Heap.get_eq_ok.mpr hc]
    exact lwipAssert_eq_ok.mpr (hs q hq c hc)

end Advanced

/-- The loop of `pbuf_copy`, with room in the rest of the one chain for what is left of the other.
Each round is done with a pbuf of one of them. -/
theorem pbufCopyLoop_spec {fuel p_to p_from offset_to offset_from : ℕ} {lt lf : List ℕ}
    {tb fb : Pbuf}
    (ht : ChainAt s (some p_to) lt) (hf : ChainAt s (some p_from) lf) (hdis : ∀ i ∈ lf, i ∉ lt)
    (hst : SinglePacket s lt) (hsf : SinglePacket s lf)
    (htb : s.pbufs p_to = some tb) (hfb : s.pbufs p_from = some fb)
    (hto : offset_to ≤ tb.len) (hfrom : offset_from ≤ fb.len)
    (hroom : offset_to + ((s.packet lf).drop offset_from).length ≤ (s.packet lt).length)
    (hfuel : lt.length + lf.length ≤ fuel) :
    ∃ s', pbufCopyLoop fuel s (some p_to) offset_to p_from offset_from = .ok s' ∧ Written lt s s' ∧
      s'.packet lt = overlay (s.packet lt) offset_to ((s.packet lf).drop offset_from) := by
  induction fuel generalizing s p_to p_from offset_to offset_from lt lf tb fb with
  | zero =>
    obtain ⟨-, lt', -, rfl, -⟩ := ht.head
    rw [List.length_cons] at hfuel
    exact absurd hfuel (by omega)
  | succ fuel ih =>
    unfold pbufCopyLoop
    rw [Heap.get_eq_ok.mpr htb]
    dsimp only [bind, Except.bind]
    rw [Heap.get_eq_ok.mpr hfb]
    dsimp only
    set len := if tb.len - offset_to ≥ fb.len - offset_from then fb.len - offset_from
      else tb.len - offset_to with hlen
    have hround : offset_to + len ≤ tb.len ∧ offset_from + len ≤ fb.len ∧
        (offset_to + len = tb.len ∨ offset_from + len = fb.len) := by
      rw [hlen]
      split <;> omega
    obtain ⟨hto', hfrom', hdone⟩ := hround
    have hge : (offset_from + len ≥ fb.len) = (offset_from + len = fb.len) :=
      propext ⟨fun h => Nat.le_antisymm hfrom' h, fun h => Nat.le_of_eq h.symm⟩
    rw [(lwipAssert_eq_ok (u := ())).mpr hto']
    dsimp only
    rw [(lwipAssert_eq_ok (u := ())).mpr hfrom']
    simp only [hge]
    set s₁ := s.set p_to (tb.write (tb.payload + offset_to) len
      fun k => fb.mem (fb.payload + offset_from + k)) with hs₁
    -- This round copies the piece of `len` bytes, and the rest of both chains is as it was.
    have hsrc := fb.map_range hfrom'
    have hwritten : Written lt s s₁ := by
      obtain ⟨-, lt', -, rfl, -⟩ := ht.head
      exact .write htb List.mem_cons_self hto' _
    have hpiece := packet_write htb ht hto' fun k => fb.mem (fb.payload + offset_from + k)
    rw [hsrc, ← hs₁] at hpiece
    have hsame : s₁.packet lf = s.packet lf := hwritten.packet_eq hdis
    have hpbuf : ∀ {i c}, s.pbufs i = some c → ∃ m, s₁.pbufs i = some { c with mem := m } :=
      fun hi => (hwritten.live _ _ hi).imp fun _ hm => hm.1
    obtain ⟨mt, htb₁⟩ := hpbuf htb
    obtain ⟨mf, hfb₁⟩ := hpbuf hfb
    obtain ⟨pret, lt', hat, hltlen⟩ := Advanced.next (hwritten.chainAt ht) htb₁ hto'
    obtain ⟨pref, lf', haf, hlflen⟩ := Advanced.next (hwritten.chainAt hf) hfb₁ hfrom'
    have hst₁ := hwritten.singlePacket hst
    have hsf₁ := hwritten.singlePacket hsf
    dsimp only at hat haf hltlen hlflen
    -- At least one of the two pointers goes on to the next pbuf.
    have hlen' : lt'.length + lf'.length < lt.length + lf.length := by
      rcases hdone with hd | hd
      · rw [if_pos hd] at hltlen
        omega
      · rw [if_pos hd] at hlflen
        omega
    revert hat haf
    generalize (if offset_to + len = tb.len then (tb.next, 0)
      else (some p_to, offset_to + len)) = nt
    generalize (if offset_from + len = fb.len then (fb.next, 0)
      else (some p_from, offset_from + len)) = nf
    intro hat haf
    -- What is left of the chain before the round is the piece and what is left behind it.
    set piece := (fb.bytes.drop offset_from).take len with hpieceDef
    have hpieceLen : piece.length = len := by
      rw [hpieceDef, List.length_take, List.length_drop, Pbuf.length_bytes]
      omega
    have hleft : (s.packet lf).drop offset_from = piece ++ (s₁.packet lf').drop nf.2 := by
      obtain ⟨b, lf'', hb, rfl, -, -⟩ := hf.head
      obtain rfl := Option.some.inj (hfb.symm.trans hb)
      have htake : piece = ((s.packet (p_from :: lf'')).drop offset_from).take len := by
        rw [Heap.packet_cons hfb, List.drop_append_of_le_length (by rwa [Pbuf.length_bytes]),
          List.take_append_of_le_length (by rw [List.length_drop, Pbuf.length_bytes]; omega)]
      rw [← haf.drop, hsame, ← List.drop_drop, htake, List.take_append_drop]
    rw [haf.checkQueue hsf₁]
    dsimp only
    rw [hat.checkQueue hst₁]
    dsimp only
    obtain ⟨next_from, offset_from'⟩ := nf
    dsimp only at haf hleft ⊢
    rw [hleft]
    cases next_from with
    | none =>
      cases haf.chain
      refine ⟨s₁, rfl, hwritten, ?_⟩
      rw [hpiece]
      simp [Heap.packet]
    | some q =>
      have hmore := haf.more hsf₁ q rfl
      have hroom' : nt.2 + ((s₁.packet lf').drop offset_from').length ≤ (s₁.packet lt').length := by
        have htlen : (s₁.packet lt).length = (s.packet lt).length := by
          rw [hpiece, length_overlay]
          rw [hleft, List.length_append] at hroom
          omega
        have hoff := hat.offset
        rw [hat.split, Heap.packet_append, List.length_append, ← hat.split] at htlen
        rw [hleft, List.length_append, hpieceLen] at hroom
        omega
      obtain ⟨next_to, offset_to'⟩ := nt
      dsimp only at hat hroom' ⊢
      cases next_to with
      | none =>
        -- There is room for what is left, so the target does not come to its end.
        cases hat.chain
        rw [List.length_drop] at hroom'
        simp only [Heap.packet, List.flatMap_nil, List.length_nil] at hroom'
        exact absurd hmore (by rw [Heap.packet]; omega)
      | some q' =>
        obtain ⟨c, hc, hoc⟩ := haf.within q rfl
        obtain ⟨c', hc', hoc'⟩ := hat.within q' rfl
        have hlt' : ∀ i ∈ lt', i ∈ lt := fun i hi => by
          rw [hat.split]
          exact List.mem_append_right _ hi
        have hlf' : ∀ i ∈ lf', i ∈ lf := fun i hi => by
          rw [haf.split]
          exact List.mem_append_right _ hi
        obtain ⟨s', hrun, hw', hpacket⟩ := ih hat.chain haf.chain
          (fun i hi hil => hdis i (hlf' i hi) (hlt' i hil)) (fun i hi => hst₁ i (hlt' i hi))
          (fun i hi => hsf₁ i (hlf' i hi)) hc' hc hoc' hoc hroom' (by omega)
        refine ⟨s', hrun, hwritten.trans (hw'.mono hlt'), ?_⟩
        rw [hat.overlay_eq ht.nodup hw' hpacket, hpiece]
        conv_lhs => rw [← hpieceLen]
        rw [overlay_overlay]
        rw [hleft, List.length_append] at hroom
        omega

/-- `pbuf_copy` of a packet to one that is not shorter. -/
theorem pbufCopy_spec {p_to p_from : ℕ} {lt lf : List ℕ} (ht : ChainAt s (some p_to) lt)
    (hf : ChainAt s (some p_from) lf) (hdis : ∀ i ∈ lf, i ∉ lt) (hst : SinglePacket s lt)
    (hsf : SinglePacket s lf) (hlen : s.totOf (some p_from) ≤ s.totOf (some p_to)) :
    ∃ s', pbufCopy s p_to p_from = .ok s' ∧ Written lt s s' ∧
      s'.packet lt = s.packet lf ++ (s.packet lt).drop (s.packet lf).length := by
  obtain ⟨tb, -, htb, -⟩ := ht.head
  obtain ⟨fb, -, hfb, -⟩ := hf.head
  have hroom : (s.packet lf).length ≤ (s.packet lt).length := by rwa [← hf.totOf_eq, ← ht.totOf_eq]
  have hfuel : lt.length + lf.length ≤ 2 * s.fresh + 2 := by
    have hlt := ht.length_le
    have hlf := hf.length_le
    omega
  obtain ⟨s', hrun, hw, hpacket⟩ := pbufCopyLoop_spec ht hf hdis hst hsf htb hfb (Nat.zero_le _)
    (Nat.zero_le _) (by rwa [List.drop_zero, Nat.zero_add]) hfuel
  refine ⟨s', ?_, hw, by rw [hpacket, List.drop_zero, overlay_zero]⟩
  unfold pbufCopy
  rw [Heap.get_eq_ok.mpr htb]
  dsimp only [bind, Except.bind]
  rw [Heap.get_eq_ok.mpr hfb]
  dsimp only
  rw [Heap.totOf_some htb, Heap.totOf_some hfb] at hlen
  rw [(lwipAssert_eq_ok (u := ())).mpr hlen]
  exact hrun

/-! ## `pbuf_copy_partial` -/

/-- To copy nothing changes nothing. -/
theorem copyTo_zero (d : ℕ → UInt8) (left : ℕ) (f : ℕ → UInt8) : copyTo d left 0 f = d := by
  funext k
  exact if_neg (by omega)

/-- Two pieces that follow one another. -/
theorem copyTo_copyTo (d : ℕ → UInt8) (left m n : ℕ) (f : ℕ → UInt8) :
    copyTo (copyTo d left m f) (left + m) n (fun k => f (m + k)) = copyTo d left (m + n) f := by
  funext k
  unfold copyTo
  by_cases hm : left ≤ k ∧ k < left + m
  · rw [if_neg (by omega), if_pos hm, if_pos (by omega)]
  · by_cases hn : left + m ≤ k ∧ k < left + m + n
    · have hk : m + (k - (left + m)) = k - left := by omega
      rw [if_pos hn, if_pos (by omega), ← hk]
    · rw [if_neg hn, if_neg hm, if_neg (by omega)]

/-- What is copied depends on the bytes that are copied. -/
theorem copyTo_congr {d f g : ℕ → UInt8} {left n : ℕ} (h : ∀ k < n, f k = g k) :
    copyTo d left n f = copyTo d left n g := by
  funext k
  unfold copyTo
  by_cases hk : left ≤ k ∧ k < left + n
  · rw [if_pos hk, if_pos hk, h _ (by omega)]
  · rw [if_neg hk, if_neg hk]

/-- A byte of the payload. -/
theorem getD_bytes {k : ℕ} (b : Pbuf) (hk : k < b.len) :
    b.bytes.getD k 0 = b.mem (b.payload + k) := by
  simp [Pbuf.bytes, hk]

/-- The loop of `pbuf_copy_partial` copies what there is from the place `offset` of the rest of the
chain on, but at most `len` bytes. -/
theorem pbufCopyPartialLoop_eq {fuel len offset left : ℕ} (h : ChainAt s r l)
    (hfuel : l.length < fuel) (dataptr : ℕ → UInt8) :
    pbufCopyPartialLoop s fuel r dataptr len offset left =
      .ok (copyTo dataptr left (min len ((s.packet l).length - offset))
          fun k => (s.packet l).getD (offset + k) 0,
        left + min len ((s.packet l).length - offset)) := by
  induction h generalizing fuel len offset left dataptr with
  | nil =>
    obtain ⟨fuel, rfl⟩ := Nat.exists_eq_add_of_lt hfuel
    simp [pbufCopyPartialLoop, Heap.packet, copyTo_zero]
  | @cons p b l hb _ _ _ ih =>
    obtain ⟨fuel, rfl⟩ : ∃ n, fuel = n + 1 := Nat.exists_eq_succ_of_ne_zero (by omega)
    rw [List.length_cons] at hfuel
    unfold pbufCopyPartialLoop
    have hpacket := Heap.packet_cons hb l
    have hlength : (s.packet (p :: l)).length = b.len + (s.packet l).length := by
      rw [hpacket, List.length_append, Pbuf.length_bytes]
    dsimp only
    split
    · next hzero => simp [hzero, copyTo_zero]
    rw [Heap.get_eq_ok.mpr hb]
    dsimp only [bind, Except.bind]
    split
    · next hskip =>
      -- The place is behind this pbuf.
      rw [ih (by omega), hlength]
      have hn : min len ((s.packet l).length - (offset - b.len)) =
          min len (b.len + (s.packet l).length - offset) := by omega
      rw [hn]
      refine congrArg (fun d => Except.ok (d, _)) (copyTo_congr fun k _ => ?_)
      rw [hpacket, List.getD_append_right _ _ _ _ (by rw [Pbuf.length_bytes]; omega),
        Pbuf.length_bytes]
      congr 1
      omega
    · next hcopy =>
      have hoff : offset ≤ b.len := by omega
      -- The copy starts in this pbuf, and goes on at the beginning of the next one.
      set n := if b.len - offset > len then len else b.len - offset with hn
      have hmin : n = min len (b.len - offset) := by
        rw [hn]
        split <;> omega
      have hsum : n + min (len - n) ((s.packet l).length - 0) =
          min len (b.len + (s.packet l).length - offset) := by omega
      have hhead : ∀ k < n, b.mem (b.payload + offset + k) =
          (s.packet (p :: l)).getD (offset + k) 0 := by
        intro k hk
        rw [hpacket, List.getD_append _ _ _ _ (by rw [Pbuf.length_bytes]; omega),
          b.getD_bytes (by omega), Nat.add_assoc]
      have htail : ∀ k < min (len - n) ((s.packet l).length - 0),
          (s.packet l).getD (0 + k) 0 = (s.packet (p :: l)).getD (offset + (n + k)) 0 := by
        intro k hk
        rw [hpacket, List.getD_append_right _ _ _ _ (by rw [Pbuf.length_bytes]; omega),
          Pbuf.length_bytes]
        congr 1
        omega
      rw [ih (by omega), copyTo_congr hhead, copyTo_congr htail, copyTo_copyTo, hlength, ← hsum,
        Nat.add_assoc]

/-- `pbuf_copy_partial` of any chain. -/
theorem pbufCopyPartial_eq (h : ChainAt s (some p) l) (dataptr : ℕ → UInt8) (len offset : ℕ) :
    pbufCopyPartial s p dataptr len offset =
      .ok (copyTo dataptr 0 (min len ((s.packet l).length - offset))
          fun k => (s.packet l).getD (offset + k) 0,
        min len ((s.packet l).length - offset)) := by
  have hfuel := Nat.lt_succ_of_le h.length_le
  unfold pbufCopyPartial
  rw [pbufCopyPartialLoop_eq h hfuel, Nat.zero_add]

/-! ## `pbuf_take` -/

/-- The loop of `pbuf_take`, with room for what is left to be j. -/
theorem pbufTakeLoop_spec {fuel n j : ℕ} {d : ℕ → UInt8} (h : ChainAt s r l)
    (hfuel : l.length < fuel) (hn : n ≤ (s.packet l).length) :
    ∃ s', pbufTakeLoop d fuel s r n j = .ok (s', j + n) ∧ Written l s s' ∧
      s'.packet l = overlay (s.packet l) 0 ((List.range n).map fun k => d (j + k)) := by
  induction l generalizing fuel s r n j with
  | nil =>
    obtain ⟨fuel, rfl⟩ := Nat.exists_eq_add_of_lt hfuel
    obtain rfl : n = 0 := Nat.le_zero.mp hn
    exact ⟨s, by simp [pbufTakeLoop], .refl _ s, by simp⟩
  | cons p l ih =>
    obtain ⟨fuel, rfl⟩ : ∃ n, fuel = n + 1 := Nat.exists_eq_succ_of_ne_zero (by omega)
    rw [List.length_cons] at hfuel
    unfold pbufTakeLoop
    split
    · next hzero =>
      subst hzero
      exact ⟨s, rfl, .refl _ s, by simp⟩
    obtain ⟨b, hb, hrest, rfl⟩ : ∃ b, s.pbufs p = some b ∧ ChainAt s b.next l ∧ r = some p := by
      cases h with
      | cons hb _ _ hrest => exact ⟨_, hb, hrest, rfl⟩
    have hnodup := List.nodup_cons.mp h.nodup
    dsimp only
    rw [Heap.get_eq_ok.mpr hb]
    dsimp only [bind, Except.bind, Except.mapError]
    -- This pbuf gets the first m octets, and the induction hypothesis is about the heap after that.
    set m := if n > b.len then b.len else n with hm
    have hmin : m = min n b.len := by
      rw [hm]
      split <;> omega
    set src : ℕ → UInt8 := fun k => d (j + k) with hsrc
    have hw : Written [p] s (s.set p (b.write (b.payload + 0) m src)) :=
      .write hb (List.mem_singleton_self p) (by omega) src
    have hpiece := packet_write hb h (o := 0) (n := m) (by omega) src
    rw [Nat.add_zero] at hw hpiece
    set s₁ := s.set p (b.write b.payload m src) with hs₁
    have hother : ∀ i ∈ l, i ∉ [p] := fun i hi hip => hnodup.1 (List.mem_singleton.mp hip ▸ hi)
    have hlength := Heap.packet_cons hb l
    have hlen₁ := hw.packet_eq hother
    rw [hlength, List.length_append, Pbuf.length_bytes] at hn
    obtain ⟨s', hrun, hw', hpacket⟩ := ih (n := n - m) (j := j + m) (hw.chainAt hrest)
      (Nat.lt_of_succ_lt_succ hfuel) (by rw [hlen₁]; omega)
    have hsum : j + m + (n - m) = j + n := by omega
    rw [hsum] at hrun
    refine ⟨s', hrun, (hw.mono fun i hi => ?_).trans
      (hw'.mono fun i hi => List.mem_cons_of_mem p hi), ?_⟩
    · rw [List.mem_singleton.mp hi]
      exact List.mem_cons_self
    -- The rounds behind it leave this pbuf alone.
    · obtain ⟨m', hp', hsame, -⟩ := hw'.live p _ (Heap.set_self s p _)
      have hbytes : s'.bytesOf p = overlay b.bytes 0 ((List.range m).map src) := by
        rw [Heap.bytesOf_eq hp', hsame hnodup.1, ← b.bytes_write (o := 0) (by omega), Nat.add_zero]
      have hsplit : (List.range n).map src =
          (List.range m).map src ++ (List.range (n - m)).map fun k => d (j + m + k) := by
        rw [← Nat.add_sub_of_le (show m ≤ n by omega), List.range_add, List.map_append,
          List.map_map, Nat.add_sub_cancel_left]
        refine congrArg _ (List.map_congr_left fun k _ => ?_)
        simp only [hsrc, Function.comp, Nat.add_assoc]
      rw [hsplit, hlength]
      show s'.bytesOf p ++ s'.packet l = _
      rw [hbytes, hpacket, hlen₁]
      by_cases hall : n ≤ b.len
      · -- The last piece.
        have hrest : n - m = 0 := by omega
        rw [hrest, List.range_zero, List.map_nil, overlay_nil, List.append_nil, overlay_append]
        rw [List.length_map, List.length_range, Pbuf.length_bytes]
        omega
      · refine overlay_append_overlay ?_ _ _
        rw [List.length_map, List.length_range, Pbuf.length_bytes]
        omega

/-- `pbuf_take` of data that fit into the chain. -/
theorem pbufTake_spec {d : ℕ → UInt8} {len : ℕ} (h : ChainAt s (some p) l)
    (hlen : len ≤ s.totOf (some p)) :
    ∃ s', pbufTake s p d len = .ok (s', .ERR_OK) ∧ Written l s s' ∧
      s'.packet l = overlay (s.packet l) 0 ((List.range len).map d) := by
  obtain ⟨b, -, hb, -⟩ := h.head
  have hroom : len ≤ (s.packet l).length := by rwa [← h.totOf_eq]
  obtain ⟨s', hrun, hw, hpacket⟩ := pbufTakeLoop_spec (j := 0) (d := d) h
    (Nat.lt_succ_of_le h.length_le) hroom
  rw [Nat.zero_add] at hrun
  simp only [Nat.zero_add] at hpacket
  refine ⟨s', ?_, hw, hpacket⟩
  rw [Heap.totOf_some hb] at hlen
  unfold pbufTake
  rw [Heap.get_eq_ok.mpr hb]
  dsimp only [bind, Except.bind, Except.mapError]
  rw [if_neg (Nat.not_lt.mpr hlen), hrun]
  dsimp only
  rw [(lwipAssert_eq_ok (u := ())).mpr rfl]

/-- What was taken is read back. -/
theorem pbufTake_copyPartial {d : ℕ → UInt8} {len : ℕ} (h : ChainAt s (some p) l)
    (hlen : len ≤ s.totOf (some p)) :
    ∃ s', pbufTake s p d len = .ok (s', .ERR_OK) ∧ Written l s s' ∧
      ∀ buf, ∃ buf', pbufCopyPartial s' p buf len 0 = .ok (buf', len) ∧ ∀ k < len,
      buf' k = d k := by
  obtain ⟨s', hrun, hw, hpacket⟩ := pbufTake_spec (d := d) h hlen
  have hroom : len ≤ (s.packet l).length := by rwa [← h.totOf_eq]
  have hlength : (s'.packet l).length = (s.packet l).length := by
    rw [hpacket, length_overlay (by simpa using hroom)]
  have hmin : min len ((s'.packet l).length - 0) = len := by omega
  have hcopy := pbufCopyPartial_eq (hw.chainAt h)
  refine ⟨s', hrun, hw, fun buf => ?_⟩
  specialize hcopy buf len 0
  rw [hmin] at hcopy
  refine ⟨_, hcopy, fun k hk => ?_⟩
  unfold copyTo
  rw [if_pos (by omega), hpacket, overlay_zero]
  dsimp only
  rw [Nat.sub_zero, Nat.zero_add, List.getD_append _ _ _ _ (by simpa using hk)]
  simp [hk]

end Chains

/-! ## The content of packets -/

/-- `pbuf_copy` of a packet to one that is not shorter stops at no assertion, and leaves the bytes
of the packet at the beginning of the target and all other bytes as they were. `pbuf_copy_partial`
copies what there is of the bytes that are asked for, and returns their number. What `pbuf_take`
takes, `pbuf_copy_partial` reads back. -/
theorem copies_preserve_content :
    (∀ (s : Heap) (p_to p_from : ℕ) (lt lf : List ℕ), ChainAt s (some p_to) lt →
    ChainAt s (some p_from) lf →
      (∀ i ∈ lf, i ∉ lt) → SinglePacket s lt → SinglePacket s lf →
      s.totOf (some p_from) ≤ s.totOf (some p_to) →
      ∃ s', pbufCopy s p_to p_from = .ok s' ∧ Written lt s s' ∧
        s'.packet lt = s.packet lf ++ (s.packet lt).drop (s.packet lf).length) ∧
    (∀ (s : Heap) (p : ℕ) (l : List ℕ) (dataptr : ℕ → UInt8) (len offset : ℕ),
    ChainAt s (some p) l →
      ∃ dataptr', pbufCopyPartial s p dataptr len offset =
          .ok (dataptr', min len (s.totOf (some p) - offset)) ∧
        ∀ k, dataptr' k = if k < min len (s.totOf (some p) - offset)
          then (s.packet l).getD (offset + k) 0 else dataptr k) ∧
    ∀ (s : Heap) (p : ℕ) (l : List ℕ) (dataptr : ℕ → UInt8) (len : ℕ), ChainAt s (some p) l →
      len ≤ s.totOf (some p) →
      ∃ s', pbufTake s p dataptr len = .ok (s', .ERR_OK) ∧ Written l s s' ∧
        ∀ buf, ∃ buf', pbufCopyPartial s' p buf len 0 = .ok (buf', len) ∧
          ∀ k < len, buf' k = dataptr k := by
  refine ⟨fun s p_to p_from lt lf ht hf hdis hst hsf hlen => pbufCopy_spec ht hf hdis hst hsf hlen,
    fun s p l dataptr len offset h => ?_, fun s p l dataptr len h hlen =>
    pbufTake_copyPartial h hlen⟩
  refine ⟨_, by rw [pbufCopyPartial_eq h, h.totOf_eq], fun k => ?_⟩
  unfold copyTo
  rw [h.totOf_eq, Nat.zero_add, Nat.sub_zero]
  simp only [Nat.zero_le, true_and]

/-- A pbuf of `len` bytes, `tot_len` with those behind it. -/
def examplePbuf (v : UInt8) (len tot_len : ℕ) (next : Option ℕ) : Pbuf :=
  { next, payload := 0, tot_len, len, type := .RAM, mem := fun _ => v, size := len }

/-- Two packets with empty pbufs in front of the last byte. -/
def exampleSplit : Heap where
  pbufs
    | 0 => some (examplePbuf 0 0 5 (some 1))
    | 1 => some (examplePbuf 0 2 5 (some 2))
    | 2 => some (examplePbuf 0 3 3 none)
    | 3 => some (examplePbuf 7 1 4 (some 4))
    | 4 => some (examplePbuf 8 0 3 (some 5))
    | 5 => some (examplePbuf 9 3 3 none)
    | _ => none
  fresh := 6

/-- The bytes of the example in a chain of three pbufs. -/
theorem copies_preserve_content_exampleSplit :
    ∃ s', pbufCopy exampleSplit 0 3 = .ok s' ∧ s'.packet [0, 1, 2] = [7, 9, 9, 9, 0] := by
  obtain ⟨s', hrun, -, hpacket⟩ := copies_preserve_content.1 exampleSplit 0 3 [0, 1, 2] [3, 4, 5]
    (.cons rfl (by decide) rfl (.cons rfl (by decide) rfl (.cons rfl (by decide) rfl .nil)))
    (.cons rfl (by decide) rfl (.cons rfl (by decide) rfl (.cons rfl (by decide) rfl .nil)))
    (by decide)
    (by simp [SinglePacket, exampleSplit, examplePbuf])
    (by simp [SinglePacket, exampleSplit, examplePbuf])
    (by decide)
  exact ⟨s', hrun, hpacket⟩

/-- A packet of 5 bytes with an empty pbuf behind the last one, and room for 5 bytes. -/
def exampleEmptyTail : Heap where
  pbufs
    | 0 => some (examplePbuf 0 5 5 none)
    | 1 => some (examplePbuf 7 2 5 (some 2))
    | 2 => some (examplePbuf 8 3 3 (some 3))
    | 3 => some (examplePbuf 9 0 0 none)
    | _ => none
  fresh := 4

/-- The pbuf with the last byte is taken for the last one of a packet, and there is one more. -/
theorem copy_emptyTail_fails :
    ChainAt exampleEmptyTail (some 0) [0] ∧ ChainAt exampleEmptyTail (some 1) [1, 2, 3] ∧
      exampleEmptyTail.totOf (some 1) ≤ exampleEmptyTail.totOf (some 0) ∧
      pbufCopy exampleEmptyTail 0 1 = .error .copyQueue :=
  ⟨.cons rfl (by decide) rfl .nil,
    .cons rfl (by decide) rfl (.cons rfl (by decide) rfl (.cons rfl (by decide) rfl .nil)),
    by decide, rfl⟩

end Lwip.Pbuf
