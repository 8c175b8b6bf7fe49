import Lwip.Snmp.VarbindList

/-!
# Empty pbufs

What a function of `asn1_dec.c` reads of a chain is what it reads of the chain without its empty
pbufs, unless it enters one of these, where it leaves the payload (`walk_compact`). A walk enters an
empty pbuf when it moves on behind the octet in front of it, so that one behind a field is not
entered. The same holds for the list of bindings as a whole (`decVarbindsAlloc_compact`).
-/

namespace Lwip.Snmp

/-- The chain without its empty pbufs. -/
def compact (p : List (List UInt8)) : List (List UInt8) := p.filter fun q => !q.isEmpty

/-- Without its empty pbufs a chain has the same octets. -/
@[simp] theorem flatten_compact (p : List (List UInt8)) : (compact p).flatten = p.flatten :=
  List.flatten_filter_not_isEmpty

/-- A compact chain has no empty pbufs. -/
theorem gapless_compact (p : List (List UInt8)) : Gapless (compact p) := by
  intro q hq hnil
  have hmem := List.dropWhile_sublist List.isEmpty |>.subset hq
  have hfull := (List.mem_filter.mp hmem).2
  rw [hnil] at hfull
  cases hfull

/-! ## Results -/

/-- The two results agree, unless the first one is `stop`. -/
def Agrees {ε α : Type} (stop : ε) (x y : Except ε α) : Prop := x = y ∨ x = .error stop

section Agrees

variable {ε α β : Type} {e : ε} {x y : Except ε α}

/-- A result agrees with itself. -/
theorem Agrees.refl (x : Except ε α) : Agrees e x x := .inl rfl

/-- Results in sequence agree if their parts do. -/
theorem Agrees.bind {f g : α → Except ε β} (h : Agrees e x y) (hf : ∀ a, Agrees e (f a) (g a)) :
    Agrees e (x >>= f) (y >>= g) := by
  obtain rfl | rfl := h
  · cases x with
    | error e' => exact .refl _
    | ok a => exact hf a
  · exact .inr rfl

/-- What is made of results that agree agrees. -/
theorem Agrees.map {f : α → β} (h : Agrees e x y) : Agrees e (f <$> x) (f <$> y) := by
  obtain rfl | rfl := h
  · exact .refl _
  · exact .inr rfl

/-- Either branch agrees. -/
theorem Agrees.ite {c : Prop} [Decidable c] {x' y' : Except ε α} (h : Agrees e x y)
    (h' : Agrees e x' y') : Agrees e (if c then x else x') (if c then y else y') := by
  split
  · exact h
  · exact h'

/-- A result that is not `stop` is the other one too. -/
theorem Agrees.eq (h : Agrees e x y) (hne : x ≠ .error e) : x = y := h.resolve_right hne

end Agrees

/-! ## Walks -/

section Walks

variable {α β : Type} {m : Walk α} {x y : Ptr}

/-- The same place in a chain and in the chain without its empty pbufs. -/
structure Twin (x y : Ptr) : Prop where
  p : y.p = x.p
  next : y.next = compact x.next
  ofs : y.ofs = x.ofs
  plen : y.plen = x.plen
  msg_ptr : y.msg_ptr = x.msg_ptr

/-- Without the empty pbufs, a walk does the same, unless it leaves the payload. -/
def Tame (m : Walk α) : Prop :=
  ∀ x y, Twin x y → (m x).1 = .error .outOfBounds ∨
    (∃ a x' y', m x = (.ok a, x') ∧ m y = (.ok a, y') ∧ Twin x' y') ∨
    (m x).1 = .error .ARG ∧ (m y).1 = .error .ARG

/-- A walk that first reads an octet leaves the payload in an empty pbuf. -/
def Eager (m : Walk α) : Prop := ∀ x, x.p = [] → (m x).1 = .error .outOfBounds

/-- A result is tame. -/
theorem tame_pure (a : α) : Tame (pure a : Walk α) :=
  fun x y h => .inr (.inl ⟨a, x, y, rfl, rfl, h⟩)

/-- A refusal is tame. -/
theorem tame_stop : Tame (stop .ARG : Walk α) := fun _ _ _ => .inr (.inr ⟨rfl, rfl⟩)

/-- A read is tame. -/
theorem tame_take : Tame take := by
  intro x y h
  unfold take
  rw [h.p, h.msg_ptr]
  cases x.p[x.msg_ptr]? with
  | none => exact .inl rfl
  | some b => exact .inr (.inl ⟨b, x, y, rfl, rfl, h⟩)

/-- A walk is tame if its parts are. -/
theorem Tame.bind {f : α → Walk β} (hm : Tame m) (hf : ∀ a, Tame (f a)) : Tame (m >>= f) := by
  intro x y h
  obtain hout | ⟨a, x', y', hx, hy, h'⟩ | ⟨hx, hy⟩ := hm x y h
  · refine .inl ?_
    cases hmx : m x with
    | mk r x' =>
      rw [hmx] at hout
      obtain rfl : r = .error .outOfBounds := hout
      rw [bind_error hmx]
  · rw [bind_ok hx, bind_ok hy]
    exact hf a x' y' h'
  · refine .inr (.inr ?_)
    have herr : ∀ {x : Ptr}, (m x).1 = .error .ARG → ((m >>= f) x).1 = .error .ARG := by
      intro x hx
      cases hmx : m x with
      | mk r x' =>
        rw [hmx] at hx
        obtain rfl : r = .error .ARG := hx
        rw [bind_error hmx]
    exact ⟨herr hx, herr hy⟩

/-- Either branch is tame. -/
theorem Tame.ite {c : Prop} [Decidable c] {m' : Walk α} (hm : Tame m) (hm' : Tame m') :
    Tame (if c then m else m') := by
  split
  · exact hm
  · exact hm'

/-- A walk that starts with a read is eager. -/
theorem eager_take_bind (f : UInt8 → Walk α) : Eager (take >>= f) := by
  intro x hx
  have htake : take x = (.error .outOfBounds, x) := by
    unfold take
    rw [hx]
    rfl
  rw [bind_error htake]

/-- A walk that starts with an eager one is eager. -/
theorem Eager.bind {f : α → Walk β} (hm : Eager m) : Eager (m >>= f) := by
  intro x hx
  have hout := hm x hx
  cases hmx : m x with
  | mk r x' =>
    rw [hmx] at hout
    obtain rfl : r = .error .outOfBounds := hout
    rw [bind_error hmx]

/-- To move on to the next octet, and to read it. -/
theorem tame_step_bind {f : Unit → Walk α} (he : Eager (f ())) (hf : Tame (f ())) :
    Tame (step >>= f) := by
  intro x y h
  by_cases hlast : u16 (x.ofs + 1) ≥ x.plen
  · cases hnext : x.next with
    | nil =>
      -- This is the end of both chains.
      have hend : ∀ z : Ptr, z.next = [] → z.ofs = x.ofs → z.plen = x.plen →
          step z = (.error .ARG, { z with ofs := u16 (x.ofs + 1) }) := by
        intro z hz hofs hplen
        unfold step
        simp only [hofs, hplen, hlast, if_true, hz]
      have hy : y.next = [] := by rw [h.next, hnext]; rfl
      refine .inr (.inr ⟨?_, ?_⟩)
      · rw [bind_error (hend x hnext rfl rfl)]
      · rw [bind_error (hend y hy h.ofs h.plen)]
    | cons q next =>
      have hstep : step x = (.ok (), ⟨x.before ++ [x.p], q, next, u16 (x.ofs + 1),
          u16 (x.plen + q.length), 0⟩) := by
        unfold step
        simp only [hlast, if_true, hnext]
      rw [bind_ok hstep]
      cases q with
      | nil => exact .inl (he _ rfl)
      | cons b q =>
        have hy : y.next = (b :: q) :: compact next := by rw [h.next, hnext]; rfl
        have hstep' : step y = (.ok (), ⟨y.before ++ [y.p], b :: q, compact next, u16 (x.ofs + 1),
            u16 (x.plen + (b :: q).length), 0⟩) := by
          unfold step
          simp only [h.ofs, h.plen, hlast, if_true, hy]
        rw [bind_ok hstep']
        exact hf _ _ ⟨rfl, rfl, rfl, rfl, rfl⟩
  · have hstep : ∀ z : Ptr, z.ofs = x.ofs → z.plen = x.plen →
        step z = (.ok (), { z with ofs := u16 (x.ofs + 1), msg_ptr := z.msg_ptr + 1 }) := by
      intro z hofs hplen
      unfold step
      simp only [hofs, hplen, hlast, if_false]
    rw [bind_ok (hstep x rfl rfl), bind_ok (hstep y h.ofs h.plen)]
    refine hf _ _ ⟨h.p, h.next, rfl, h.plen, ?_⟩
    show y.msg_ptr + 1 = x.msg_ptr + 1
    rw [h.msg_ptr]

/-- To move on and to fail is to fail. -/
theorem tame_step_stop : Tame (step >>= fun _ => (stop .ARG : Walk α)) := by
  have hstop : ∀ x, ((step >>= fun _ => (stop .ARG : Walk α)) x).1 = .error .ARG := by
    intro x
    cases hx : step x with
    | mk r x' =>
      cases r with
      | ok u =>
        rw [bind_ok hx]
        rfl
      | error e =>
        rw [bind_error hx]
        unfold step at hx
        dsimp only at hx
        split at hx
        · split at hx
          · cases hx
            rfl
          · cases hx
        · cases hx
  exact fun x y _ => .inr (.inr ⟨hstop x, hstop y⟩)

end Walks

/-! ## The functions of `asn1_dec.c` -/

section Functions

/-- The loop for the indefinite length is tame. -/
theorem tame_decIndefinite (fuel zeros length : ℕ) : Tame (decIndefinite fuel zeros length) := by
  induction fuel generalizing zeros length with
  | zero => exact tame_stop
  | succ fuel ih =>
    exact tame_step_bind (eager_take_bind _) (tame_take.bind fun _ => (tame_pure _).ite (ih _ _))

/-- The reading of a length is tame. -/
theorem tame_decLength : Tame decLength := by
  refine tame_take.bind fun b => (tame_pure _).ite (.ite ?_ (.ite ?_ (.ite ?_ tame_stop)))
  · exact (tame_decIndefinite _ _ _).bind fun _ => tame_pure _
  · exact tame_step_bind (eager_take_bind _) (tame_take.bind fun _ => tame_pure _)
  · refine tame_step_bind (eager_take_bind _) (tame_take.bind fun _ => ?_)
    exact tame_step_bind (eager_take_bind _) (tame_take.bind fun _ => tame_pure _)

/-- The loops that read an octet in each round, and move on behind each but the last one. -/
theorem decOctets_tame (len value : ℕ) :
    Tame (decOctets len value) ∧ Eager (decOctets len value) := by
  induction len, value using decOctets.induct with
  | case1 len value ih =>
    exact ⟨tame_take.bind fun b => tame_step_bind (ih b).2 (ih b).1, eager_take_bind _⟩
  | case2 value len hlen =>
    rw [decOctets.eq_2 value len hlen]
    exact ⟨tame_take.bind fun _ => tame_pure _, eager_take_bind _⟩

/-- The reading of a number is tame. -/
theorem tame_decU32t (len : ℕ) : Tame (decU32t len) := by
  refine .ite (tame_take.bind fun b => tame_stop.ite (.ite ?_ (decOctets_tame _ _).1)) tame_stop
  exact tame_step_bind (decOctets_tame _ _).2 (decOctets_tame _ _).1

/-- The reading of signed octets is tame and eager. -/
theorem decSigned_tame (sign : Bool) (len : ℕ) (value : ℤ) :
    Tame (decSigned sign len value) ∧ Eager (decSigned sign len value) := by
  induction len, value using decSigned.induct sign with
  | case1 len value ih =>
    exact ⟨tame_take.bind fun b => tame_step_bind (ih b).2 (ih b).1, eager_take_bind _⟩
  | case2 value len hlen =>
    rw [decSigned.eq_2 sign value len hlen]
    exact ⟨tame_take.bind fun _ => tame_pure _, eager_take_bind _⟩

/-- The reading of a signed number is tame. -/
theorem tame_decS32t (len : ℕ) : Tame (decS32t len) :=
  .ite (tame_take.bind fun _ => (decSigned_tame _ _ _).1.ite (decSigned_tame _ _ _).1) tame_stop

/-- The reading of a string is tame and eager. -/
theorem decRawOctets_tame (len : ℕ) : Tame (decRawOctets len) ∧ Eager (decRawOctets len) := by
  induction len using decRawOctets.induct with
  | case1 len ih =>
    refine ⟨tame_take.bind fun b => tame_step_bind ih.2.bind ?_, eager_take_bind _⟩
    exact ih.1.bind fun _ => tame_pure _
  | case2 len hlen =>
    rw [decRawOctets.eq_2 len hlen]
    exact ⟨tame_take.bind fun _ => tame_pure _, eager_take_bind _⟩

/-- The octets of a sub-identifier, and what is done with the one behind them. -/
theorem decSubId_tame {α : Type} (len : ℕ) (sub_id : ℤ) (f : ℤ × ℕ → UInt8 → Walk α)
    (hf : ∀ r b, Tame (f r b)) :
    Tame (decSubId len sub_id >>= fun r => take >>= f r) ∧
      Eager (decSubId len sub_id >>= fun r => take >>= f r) := by
  induction len, sub_id using decSubId.induct with
  | case1 len sub_id ih =>
    unfold decSubId
    rw [walk_bind_assoc]
    refine ⟨tame_take.bind fun b => ?_, eager_take_bind _⟩
    split
    · rw [walk_bind_assoc]
      exact tame_step_bind (ih b).2 (ih b).1
    · exact tame_take.bind (hf (sub_id, len + 2))
  | case2 len sub_id hlen =>
    rw [decSubId.eq_2 len sub_id hlen]
    exact ⟨tame_take.bind (hf (sub_id, len)), eager_take_bind _⟩

/-- The reading of a sub-identifier is tame. -/
theorem tame_decElement (old : ℤ) (b : UInt8) (len : ℕ) : Tame (decElement old b len) :=
  .ite (decSubId_tame _ _ _ fun _ _ => (tame_pure _).ite (tame_pure _)).1 (tame_pure _)

/-- The sub-identifiers, and the check that they are all. Where the array is full, the walk may
stand in an empty pbuf, but the identifier is refused then. -/
theorem decSubIds_tame (old : ℕ → ℤ) (room len : ℕ) (id : List ℤ) :
    Tame (decSubIds old room len id >>= fun r => if r.1 = 0 then pure r.2 else stop .ARG) ∧
      (0 < len → Tame (step >>= fun _ =>
        decSubIds old room len id >>= fun r => if r.1 = 0 then pure r.2 else stop .ARG)) := by
  induction room generalizing len id with
  | zero =>
    refine ⟨(tame_pure _).ite tame_stop, fun hpos => ?_⟩
    have hstop : (decSubIds old 0 len id >>= fun r => if r.1 = 0 then pure r.2 else stop .ARG) =
        (stop .ARG : Walk (List ℤ)) := if_neg (Nat.ne_of_gt hpos)
    rw [hstop]
    exact tame_step_stop
  | succ room ih =>
    cases len with
    | zero => exact ⟨(tame_pure _).ite tame_stop, fun hpos => absurd hpos (Nat.lt_irrefl 0)⟩
    | succ len =>
      have htame : Tame (decSubIds old (room + 1) (len + 1) id >>= fun r =>
          if r.1 = 0 then pure r.2 else stop .ARG) := by
        unfold decSubIds
        rw [walk_bind_assoc]
        refine tame_take.bind fun b => ?_
        rw [walk_bind_assoc]
        refine (tame_decElement _ _ _).bind fun r => ?_
        dsimp only
        split
        · next hpos =>
          rw [walk_bind_assoc]
          exact (ih _ _).2 hpos
        · exact (ih _ _).1
      refine ⟨htame, fun _ => tame_step_bind ?_ htame⟩
      unfold decSubIds
      exact (eager_take_bind _).bind

/-- The reading of an identifier is tame. -/
theorem tame_decOid (old : ℕ → ℤ) (len : ℕ) : Tame (decOid old len) := by
  refine .ite (tame_pure _) (tame_take.bind fun b => ?_)
  dsimp only
  split
  · next hpos => exact (decSubIds_tame _ _ _ _).2 hpos
  · exact (decSubIds_tame _ _ _ _).1

end Functions

/-! ## A whole chain -/

section Chains

variable {α : Type} {m : Malloc} {p : List (List UInt8)} {ofs : ℕ} {old : ℕ → ℤ}

/-- The octet at `ofs` is found at the same place. -/
theorem seek_compact (before before' : List (List UInt8)) {plen : ℕ} (hle : plen ≤ ofs)
    (hlt : plen < 2^16) :
    (seek ofs before plen p = none ∧ seek ofs before' plen (compact p) = none) ∨
      ∃ x y, seek ofs before plen p = some x ∧ seek ofs before' plen (compact p) = some y ∧
        Twin x y := by
  induction p generalizing before before' plen with
  | nil => exact .inl ⟨rfl, rfl⟩
  | cons q next ih =>
    cases q with
    | nil =>
      have hsame : u16 (plen + ([] : List UInt8).length) = plen := Nat.mod_eq_of_lt hlt
      have hskip : seek ofs before plen ([] :: next) = seek ofs (before ++ [[]]) plen next := by
        rw [seek, hsame, if_neg (Nat.not_lt.mpr hle)]
      have hnil : compact ([] :: next) = compact next := rfl
      rw [hskip, hnil]
      exact ih _ _ hle hlt
    | cons b q =>
      have hcons : compact ((b :: q) :: next) = (b :: q) :: compact next := rfl
      rw [hcons]
      unfold seek
      dsimp only
      by_cases hhere : ofs < u16 (plen + (b :: q).length)
      · rw [if_pos hhere, if_pos hhere]
        exact .inr ⟨_, _, rfl, rfl, ⟨rfl, rfl, rfl, rfl, rfl⟩⟩
      · rw [if_neg hhere, if_neg hhere]
        exact ih _ _ (Nat.not_lt.mp hhere) (Nat.mod_lt _ (by decide))

/-- What is read of a chain is what is read of it without its empty pbufs. -/
theorem walk_compact {m : Walk α} (hm : Tame m) (p : List (List UInt8)) (ofs : ℕ) :
    Agrees .outOfBounds (walk m p ofs).1 (walk m (compact p) ofs).1 := by
  unfold walk
  obtain ⟨hx, hy⟩ | ⟨x, y, hx, hy, htwin⟩ :=
    seek_compact (p := p) [] [] (Nat.zero_le ofs) (by decide : 0 < 2^16)
  · rw [hx, hy]
    exact .inl rfl
  · rw [hx, hy]
    dsimp only
    obtain hout | ⟨a, x', y', hx', hy', -⟩ | ⟨hx', hy'⟩ := hm x y htwin
    · exact .inr hout
    · rw [hx', hy']
      exact .inl rfl
    · rw [hx', hy']
      exact .inl rfl

/-- A length is the same without the empty pbufs. -/
theorem lengthAt_compact (p : List (List UInt8)) (ofs : ℕ) :
    Agrees .outOfBounds (lengthAt p ofs) (lengthAt (compact p) ofs) :=
  walk_compact tame_decLength p _

/-- A type octet is read where it is found. -/
theorem readType_compact (p : List (List UInt8)) (ofs : ℕ) (type : UInt8) :
    readType (compact p) ofs type = readType p ofs type := by
  unfold readType walk
  obtain ⟨hx, hy⟩ | ⟨x, y, hx, hy, htwin⟩ :=
    seek_compact (p := p) [] [] (Nat.zero_le ofs) (by decide : 0 < 2^16)
  · rw [hx, hy]
  · rw [hx, hy]
    dsimp only
    unfold decType take
    rw [htwin.p, htwin.msg_ptr]
    cases x.p[x.msg_ptr]? with
    | none => rfl
    | some b => rfl

/-- A string is the same without the empty pbufs. -/
theorem decRaw_compact (p : List (List UInt8)) (ofs len raw_len : ℕ) :
    Agrees .outOfBounds (decRaw p ofs len raw_len) (decRaw (compact p) ofs len raw_len) := by
  unfold decRaw
  split
  · exact walk_compact (.ite (decRawOctets_tame len).1 tame_stop) p ofs
  · exact .refl _

/-- A value is the same without the empty pbufs. -/
theorem decVarValue_compact (old : ℕ → ℤ) (p : List (List UInt8)) (type : UInt8) (ofs len : ℕ) :
    Agrees .outOfBounds (decVarValue old p type ofs len)
    (decVarValue old (compact p) type ofs len) := by
  have hu32t := walk_compact (tame_decU32t len) p ofs
  have hraw : ∀ raw_len, _ := decRaw_compact p ofs len
  unfold decVarValue
  refine .ite (walk_compact (tame_decS32t len) p ofs).map (.ite hu32t.map (.ite hu32t.map
    (.ite hu32t.map (.ite (hraw _).map (.ite (hraw _).map (.ite (.refl _) (.ite ?_ ?_)))))))
  · exact (walk_compact (tame_decOid old len) p ofs).map
  · exact .ite (.ite (hraw _).map (.refl _)) (.refl _)

/-! ## The list of bindings -/

/-- A check of results that agree agrees. -/
theorem Agrees.check {x y : Except Stop α} (s : Varbinds) (h : Agrees .outOfBounds x y) :
    Agrees .outOfBounds (s.check x) (s.check y) := by
  obtain rfl | rfl := h
  · exact .refl _
  · exact .inr rfl

/-- A value with its memory is the same without the empty pbufs. -/
theorem decValueAlloc_compact (m : Malloc) (old : ℕ → ℤ) (p : List (List UInt8)) (s : Varbinds)
    (oid : List ℤ) (type : UInt8) (ofs len : ℕ) : Agrees .outOfBounds
      (decValueAlloc m old p s oid type ofs len)
      (decValueAlloc m old (compact p) s oid type ofs len) := by
  unfold decValueAlloc
  split
  · exact ((walk_compact (tame_decOid old len) p ofs).check s).bind fun ids => .refl _
  · split
    · exact .refl _
    · next value_len _ =>
      refine (Agrees.refl _).bind fun r => ?_
      dsimp only
      obtain hsame | hout := decVarValue_compact old p type ofs len
      · rw [hsame]
        exact .refl _
      · rw [hout]
        exact .inr rfl

/-- A round. -/
theorem decVarbindAlloc_compact (m : Malloc) (old : ℕ → ℤ) (p : List (List UInt8)) (v : DecVars)
    (s : Varbinds) :
    Agrees .outOfBounds (decVarbindAlloc m old p v s) (decVarbindAlloc m old (compact p) v s) := by
  have hlength : ∀ ofs, Agrees .outOfBounds (s.check (walk decLength p ofs).1)
      (s.check (walk decLength (compact p) ofs).1) :=
    fun ofs => (walk_compact tame_decLength p ofs).check s
  unfold decVarbindAlloc
  simp only [readType_compact]
  refine (hlength _).bind fun r => ?_
  obtain ⟨k, n⟩ := r
  refine .ite (.refl _) ((hlength _).bind fun r => ?_)
  obtain ⟨k₁, n₁⟩ := r
  refine .ite (.refl _) (((walk_compact (tame_decOid old n₁) p _).check s).bind fun oid => ?_)
  refine (hlength _).bind fun r => ?_
  obtain ⟨k₂, n₂⟩ := r
  exact (decValueAlloc_compact m old p s oid _ _ n₂).bind fun s' => .refl _

/-- The loop. -/
theorem decVarbindsAlloc_compact (m : Malloc) (old : ℕ → ℕ → ℤ) (p : List (List UInt8)) (fuel : ℕ)
    (v : DecVars) (s : Varbinds) :
    decVarbindsAlloc m old p fuel v s = decVarbindsAlloc m old (compact p) fuel v s ∨
      decVarbindsAlloc m old p fuel v s = some (.error .outOfBounds) := by
  induction fuel generalizing v s with
  | zero => exact .inl rfl
  | succ fuel ih =>
    unfold decVarbindsAlloc
    split
    · obtain hsame | hout := decVarbindAlloc_compact m (old (s.lost ++ s.invb).length) p v s
      · rw [← hsame]
        cases decVarbindAlloc m (old (s.lost ++ s.invb).length) p v s with
        | error e => exact .inl rfl
        | ok r => exact ih r.1 r.2
      · rw [hout]
        exact .inr rfl
    · exact .inl rfl

end Chains

end Lwip.Snmp
