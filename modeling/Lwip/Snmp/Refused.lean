import Lwip.Snmp.Compact

/-!
# Bindings that are refused

When a round of the loop of `snmp_pdu_dec_varbindlist` refuses its binding (`Refuses`), and when
nothing goes wrong in it (`RoundSafe`): no walk enters an empty pbuf, no assertion fails, and a
binding is refused only while the list has all the bindings that were appended, which are 256 at
most. These are conditions on what the round reads, and `roundEnds` says that they are exact.
-/

namespace Lwip.Snmp

/-- What a round has read when it comes to the value of its binding: the name, the type, the place
and the length of the value, and the variables of the next round. -/
structure Named where
  oid : List ℤ
  type : UInt8
  ofs : ℕ
  len : ℕ
  next : DecVars

/-- A round up to the value. -/
def decName (old : ℕ → ℤ) (p : List (List UInt8)) (v : DecVars) : Except Stop Named := do
  let type := readType p v.ofs v.type
  let (len_octets, len) ← (walk decLength p (u16 (v.ofs + 1))).1
  if type ≠ SEQ_TYPE ∨ len = 0 ∨ len > v.vb_len then .error .ARG
  else
    let ofs := u16 (v.ofs + (1 + len_octets))
    let vb_len := u16sub v.vb_len (1 + len_octets)
    let type := readType p ofs type
    let (len_octets, len) ← (walk decLength p (u16 (ofs + 1))).1
    if type ≠ OID_TYPE then .error .ARG
    else
      let oid ← (walk (decOid old len) p (u16 (ofs + 1 + len_octets))).1
      let ofs := u16 (ofs + (1 + len_octets + len))
      let vb_len := u16sub vb_len (1 + len_octets + len)
      let type := readType p ofs type
      let (len_octets, len) ← (walk decLength p (u16 (ofs + 1))).1
      .ok ⟨oid, type, u16 (ofs + 1 + len_octets), len,
        ⟨type, u16 (ofs + (1 + len_octets + len)), u16sub vb_len (1 + len_octets + len)⟩⟩

/-- The `len` of `snmp_varbind_alloc`. The value is read before if it is an identifier, and
after. -/
def valueRoom (old : ℕ → ℤ) (p : List (List UInt8)) (b : Named) : Except Stop ℕ :=
  if b.type = OID_TYPE then (fun ids => u8 (ids.length * 4)) <$> (walk (decOid old b.len) p b.ofs).1
  else match valueLen b.type b.len with
    | none => .error .ARG
    | some len => .ok len

/-- How often `snmp_varbind_alloc` calls `mem_malloc`. -/
def asks (oid : List ℤ) (len : ℕ) : ℕ :=
  1 + (if oid.length > 0 then 1 else 0) + (if len > 0 then 1 else 0)

/-- The round refuses its binding, when `mem_malloc` was called `calls` times before: for its name,
or the type or length of its value; for want of memory; or for the value. Only then the binding is
in the list already, so that the round has appended one. -/
inductive Refuses (m : Malloc) (old : ℕ → ℤ) (p : List (List UInt8)) (v : DecVars) (calls : ℕ) :
    (appends : ℕ) → Prop where
  | name : decName old p v = .error .ARG → Refuses m old p v calls 0
  | room {b : Named} : decName old p v = .ok b → valueRoom old p b = .error .ARG →
      Refuses m old p v calls 0
  | memory {b : Named} {len : ℕ} : decName old p v = .ok b → valueRoom old p b = .ok len →
      (∃ i < asks b.oid len, m.succeeds (calls + i) = false) → Refuses m old p v calls 0
  | value {b : Named} {len : ℕ} : decName old p v = .ok b → valueRoom old p b = .ok len →
      (∀ i < asks b.oid len, m.succeeds (calls + i)) →
      decVarValue old p b.type b.ofs b.len = .error .ARG → Refuses m old p v calls 1

/-- Nothing goes wrong in the round, when there are `n` bindings and `calls` calls of `mem_malloc`
before. -/
structure RoundSafe (m : Malloc) (old : ℕ → ℤ) (p : List (List UInt8)) (v : DecVars) (n calls : ℕ) :
    Prop where
  /-- No empty pbuf is entered. -/
  name : decName old p v ≠ .error .outOfBounds
  room : ∀ b, decName old p v = .ok b → valueRoom old p b ≠ .error .outOfBounds
  value : ∀ b len, decName old p v = .ok b → valueRoom old p b = .ok len →
    (∀ i < asks b.oid len, m.succeeds (calls + i)) →
    decVarValue old p b.type b.ofs b.len ≠ .error .outOfBounds
  /-- There is memory, if the program has its assertions. -/
  memory : ∀ b len, decName old p v = .ok b → valueRoom old p b = .ok len → m.asserts →
    ∀ i < asks b.oid len, m.succeeds (calls + i)
  /-- The bindings that are freed are all that were appended. -/
  count : ∀ appends, Refuses m old p v calls appends → n + appends ≤ 256

section Round

variable {m : Malloc} {old : ℕ → ℤ} {p : List (List UInt8)} {v v' : DecVars}
  {s s' : Varbinds} {n : ℕ}

/-- A round is what it reads up to the value, and the value. -/
theorem decVarbindAlloc_eq (m : Malloc) (old : ℕ → ℤ) (p : List (List UInt8)) (v : DecVars)
    (s : Varbinds) : decVarbindAlloc m old p v s = (s.check (decName old p v) >>= fun b =>
      decValueAlloc m old p s b.oid b.type b.ofs b.len >>= fun s' => pure (b.next, s')) := by
  have herror : ∀ {α β : Type} (e : Stop) (f : α → Except Refusal β),
      (s.check (.error e : Except Stop α) >>= f) = s.check (.error e) := by
    intro α β e f
    cases e <;> rfl
  unfold decVarbindAlloc decName
  cases (walk decLength p (u16 (v.ofs + 1))).1 with
  | error e => exact (herror e _).trans (herror e _).symm
  | ok r =>
    obtain ⟨k, len⟩ := r
    dsimp only [bind, Except.bind, Varbinds.check]
    by_cases hseq : readType p v.ofs v.type ≠ SEQ_TYPE ∨ len = 0 ∨ len > v.vb_len
    · rw [if_pos hseq]
      exact if_pos hseq
    rw [if_neg hseq]
    refine (if_neg hseq).trans ?_
    cases (walk decLength p (u16 (u16 (v.ofs + (1 + k)) + 1))).1 with
    | error e => cases e <;> rfl
    | ok r =>
      obtain ⟨k₁, len₁⟩ := r
      dsimp only
      by_cases hoid : readType p (u16 (v.ofs + (1 + k))) (readType p v.ofs v.type) ≠ OID_TYPE
      · rw [if_pos hoid]
        exact if_pos hoid
      rw [if_neg hoid]
      refine (if_neg hoid).trans ?_
      cases (walk (decOid old len₁) p (u16 (u16 (v.ofs + (1 + k)) + 1 + k₁))).1 with
      | error e => cases e <;> rfl
      | ok oid =>
        dsimp only
        cases (walk decLength p (u16 (u16 (u16 (v.ofs + (1 + k)) + (1 + k₁ + len₁)) + 1))).1 with
        | error e => cases e <;> rfl
        | ok r => rfl

/-- An allocation that succeeds. -/
theorem memMalloc_enough (h : m.succeeds s.calls) :
    memMalloc m s = .ok (true, { s with calls := s.calls + 1 }) := by
  rw [memMalloc, h, if_neg (by simp)]

/-- Memory that is asked for, if it is. -/
theorem memMalloc_maybe (c : Prop) [Decidable c] (s : Varbinds) (h : c → m.succeeds s.calls) :
    (if c then memMalloc m s else pure (true, s)) =
      .ok (true, { s with calls := s.calls + if c then 1 else 0 }) := by
  by_cases hc : c
  · rw [if_pos hc, if_pos hc, memMalloc_enough (h hc)]
  · rw [if_neg hc, if_neg hc]
    rfl

/-- What follows a call of `mem_malloc` that fails. -/
theorem memMalloc_short {α : Type} (h : m.succeeds s.calls = false)
    (f : Bool × Varbinds → Except Refusal α)
    (hf : ∀ calls, f (false, { s with calls }) = s.refuse) :
    (memMalloc m s >>= f) = if m.asserts then .error .assertion else s.refuse := by
  rw [memMalloc, h]
  by_cases ha : m.asserts = true
  · rw [if_pos ha, if_pos ⟨ha, rfl⟩]
    rfl
  · rw [if_neg ha, if_neg fun hand => ha hand.1]
    exact hf _

/-- With memory for all that is asked for, there is a binding without a value. -/
theorem varbindAlloc_enough {oid : List ℤ} {len : ℕ} (type : UInt8)
    (h : ∀ i < asks oid len, m.succeeds (s.calls + i)) :
    varbindAlloc m s oid type len =
      .ok (⟨oid, type, len, none⟩, { s with calls := s.calls + asks oid len }) := by
  unfold asks at h ⊢
  have hident := memMalloc_maybe (m := m) (oid.length > 0) { s with calls := s.calls + 1 } fun hc =>
    h 1 (by rw [if_pos hc]; omega)
  have hvalue := memMalloc_maybe (m := m) (len > 0)
    { s with calls := s.calls + 1 + if oid.length > 0 then 1 else 0 } fun hc => by
      have hlast := h (1 + if oid.length > 0 then 1 else 0) (by rw [if_pos hc]; omega)
      rwa [← Nat.add_assoc] at hlast
  unfold varbindAlloc
  refine bind_eq_ok.mpr ⟨_, memMalloc_enough (h 0 (by omega)), bind_eq_ok.mpr ⟨_, hident,
    bind_eq_ok.mpr ⟨_, hvalue, ?_⟩⟩⟩
  rw [← Nat.add_assoc, ← Nat.add_assoc]
  rfl

/-- Without it, the program stops by an assertion or the round refuses its binding. -/
theorem varbindAlloc_short {oid : List ℤ} {len : ℕ} (type : UInt8)
    (h : ∃ i < asks oid len, m.succeeds (s.calls + i) = false) :
    varbindAlloc m s oid type len = if m.asserts then .error .assertion else s.refuse := by
  unfold varbindAlloc
  by_cases hfirst : m.succeeds s.calls = true
  · rw [memMalloc_enough hfirst, ok_bind]
    simp only [if_true]
    by_cases hident : oid.length > 0 → m.succeeds (s.calls + 1) = true
    · rw [memMalloc_maybe (oid.length > 0) { s with calls := s.calls + 1 } hident, ok_bind]
      simp only [if_true]
      -- Only the last call is left.
      obtain ⟨i, hi, hfail⟩ := h
      unfold asks at hi
      have hlast : i = 1 + (if oid.length > 0 then 1 else 0) ∧ len > 0 := by
        have hzero : i ≠ 0 := by
          rintro rfl
          rw [Nat.add_zero, hfirst] at hfail
          cases hfail
        by_cases hoid : oid.length > 0
        · have hone : i ≠ 1 := by
            rintro rfl
            rw [hident hoid] at hfail
            cases hfail
          rw [if_pos hoid] at hi ⊢
          split at hi <;> omega
        · rw [if_neg hoid] at hi ⊢
          split at hi <;> omega
      obtain ⟨rfl, hlen⟩ := hlast
      rw [if_pos hlen]
      rw [← Nat.add_assoc] at hfail
      exact memMalloc_short (s := { s with calls := s.calls + 1 + if oid.length > 0 then 1 else 0 })
        hfail _ fun _ => rfl
    · obtain ⟨hoid, hfail⟩ := Classical.not_imp.mp hident
      rw [if_pos hoid]
      exact memMalloc_short (s := { s with calls := s.calls + 1 }) (Bool.not_eq_true _ ▸ hfail) _
        fun _ => rfl
  · exact memMalloc_short (Bool.not_eq_true _ ▸ hfirst) _ fun _ => rfl

/-! ## The value -/

section Value

variable {b : Named} {len : ℕ}

/-- A value is refused before memory is asked for. -/
theorem decValueAlloc_noRoom {e : Stop} (h : valueRoom old p b = .error e) :
    decValueAlloc m old p s b.oid b.type b.ofs b.len = s.check (.error e) := by
  unfold valueRoom at h
  unfold decValueAlloc
  by_cases htype : b.type = OID_TYPE
  · rw [if_pos htype] at h
    refine (if_pos htype).trans ?_
    cases hids : (walk (decOid old b.len) p b.ofs).1 with
    | ok ids =>
      rw [hids] at h
      cases h
    | error e' =>
      rw [hids] at h
      obtain rfl : e' = e := Except.error.inj h
      cases e' <;> rfl
  · rw [if_neg htype] at h
    refine (if_neg htype).trans ?_
    cases hlen : valueLen b.type b.len with
    | none =>
      rw [hlen] at h
      cases h
      rfl
    | some n =>
      rw [hlen] at h
      cases h

/-- The value with memory for it, and without. -/
theorem decValueAlloc_room (h : valueRoom old p b = .ok len) :
    decValueAlloc m old p s b.oid b.type b.ofs b.len =
      (varbindAlloc m s b.oid b.type len >>= fun r =>
        match decVarValue old p b.type b.ofs b.len with
        | .ok value => pure (r.2.tailAdd { r.1 with value := some value })
        | .error e => (r.2.tailAdd r.1).check (.error e)) := by
  unfold valueRoom at h
  unfold decValueAlloc
  by_cases htype : b.type = OID_TYPE
  · rw [if_pos htype] at h
    refine (if_pos htype).trans ?_
    rw [htype, decVarValue_OBJ_ID]
    cases hids : (walk (decOid old b.len) p b.ofs).1 with
    | ok ids =>
      rw [hids] at h
      cases h
      rfl
    | error e' =>
      rw [hids] at h
      cases h
  · rw [if_neg htype] at h
    refine (if_neg htype).trans ?_
    cases hlen : valueLen b.type b.len with
    | none =>
      rw [hlen] at h
      cases h
    | some n =>
      rw [hlen] at h
      cases h
      rfl

end Value

/-! ## The bindings that are lost -/

/-- There were `n` bindings, and the list has lost none of them as long as there are at most 256. -/
structure Varbinds.Counted (s : Varbinds) (n : ℕ) : Prop where
  count : s.count = u8 n
  length : (s.lost ++ s.invb).length = n
  lost : s.lost = [] ↔ n ≤ 256

/-- An empty list is counted. -/
theorem counted_nil (calls : ℕ) : (⟨[], 0, [], calls⟩ : Varbinds).Counted 0 :=
  ⟨rfl, rfl, iff_of_true rfl (by decide)⟩

/-- A list with one binding more is counted. -/
theorem Varbinds.Counted.tailAdd (h : s.Counted n) (a : InVarbind) :
    (s.tailAdd a).Counted (n + 1) := by
  obtain ⟨hcount, hlength, hlost⟩ := h
  have hu8 : u8 n = n % 2^8 := rfl
  have hnext : u8 (u8 n + 1) = u8 (n + 1) := Nat.mod_add_mod n _ 1
  refine ⟨?_, ?_, ?_⟩
  · unfold Varbinds.tailAdd
    rw [hcount]
    split <;> exact hnext
  · rw [Varbinds.tailAdd_all, List.length_append, hlength]
    rfl
  · unfold Varbinds.tailAdd
    rw [hcount]
    by_cases hzero : u8 n = 0
    · -- The list starts anew, and loses what was in it.
      rw [if_pos hzero]
      show s.lost ++ s.invb = [] ↔ n + 1 ≤ 256
      rw [← List.length_eq_zero_iff, hlength]
      omega
    · rw [if_neg hzero]
      show s.lost = [] ↔ n + 1 ≤ 256
      rw [hlost]
      omega

/-! ## A round -/

/-- How a round ends: it appends a binding; or it refuses one, and all that were appended are freed;
or something goes wrong. -/
inductive RoundEnds (m : Malloc) (old : ℕ → ℤ) (p : List (List UInt8)) (v : DecVars) (s : Varbinds)
    (n : ℕ) : Prop where
  | passes {v' : DecVars} {s' : Varbinds} : decVarbindAlloc m old p v s = .ok (v', s') →
      s'.Counted (n + 1) → RoundSafe m old p v n s.calls → (∀ k, ¬ Refuses m old p v s.calls k) →
      RoundEnds m old p v s n
  | refuses {k : ℕ} : decVarbindAlloc m old p v s = .error (.ARG []) →
    RoundSafe m old p v n s.calls →
      Refuses m old p v s.calls k → RoundEnds m old p v s n
  | fails {e : Refusal} : decVarbindAlloc m old p v s = .error e → e ≠ .ARG [] →
      ¬ RoundSafe m old p v n s.calls → RoundEnds m old p v s n

/-- A binding that is refused. -/
theorem roundEnds_of_refuses {left : List InVarbind} {k : ℕ}
    (heq : decVarbindAlloc m old p v s = .error (.ARG left)) (hk : Refuses m old p v s.calls k)
    (hleft : left = [] ↔ n + k ≤ 256)
    (hsafe : (∀ k', Refuses m old p v s.calls k' → n + k' ≤ 256) → RoundSafe m old p v n s.calls)
    (honly : ∀ k', Refuses m old p v s.calls k' → k' = k) : RoundEnds m old p v s n := by
  by_cases hle : n + k ≤ 256
  · rw [hleft.mpr hle] at heq
    exact .refuses heq (hsafe fun k' hk' => by rwa [honly k' hk']) hk
  · exact .fails heq (fun he => hle (hleft.mp (Refusal.ARG.inj he))) fun h => hle (h.count k hk)

/-- Where a round stops before there is memory for its binding. -/
theorem roundEnds_of_stop (e : Stop) (hs : s.Counted n)
    (heq : decVarbindAlloc m old p v s = s.check (.error e))
    (hin : e = .outOfBounds → ¬ RoundSafe m old p v n s.calls)
    (hk : e = .ARG → Refuses m old p v s.calls 0)
    (hsafe : e = .ARG → (∀ k', Refuses m old p v s.calls k' → n + k' ≤ 256) →
      RoundSafe m old p v n s.calls)
    (honly : e = .ARG → ∀ k', Refuses m old p v s.calls k' → k' = 0) : RoundEnds m old p v s n := by
  cases e with
  | outOfBounds => exact .fails heq (by decide) (hin rfl)
  | ARG => exact roundEnds_of_refuses heq (hk rfl) hs.lost (hsafe rfl) (honly rfl)

/-- A round that refuses its name. -/
theorem roundEnds_of_name {e : Stop} (hs : s.Counted n) (hname : decName old p v = .error e) :
    RoundEnds m old p v s n := by
  have hno : ∀ {b}, decName old p v ≠ .ok b := fun hb => by cases hname.symm.trans hb
  apply roundEnds_of_stop e hs
  · rw [decVarbindAlloc_eq, hname]
    cases e <;> rfl
  · rintro rfl h
    exact h.name hname
  · rintro rfl
    exact .name hname
  · rintro rfl hcount
    refine ⟨?_, fun b hb => absurd hb hno, fun b _ hb => absurd hb hno, fun b _ hb => absurd hb hno,
      hcount⟩
    rw [hname]
    exact nofun
  · rintro rfl k' hk'
    cases hk' with
    | name => rfl
    | room hb => exact absurd hb hno
    | memory hb => exact absurd hb hno
    | value hb => exact absurd hb hno

section Named

variable {b : Named} {len : ℕ}

/-- A round that refuses the type or the length of its value. -/
theorem roundEnds_of_room {e : Stop} (hs : s.Counted n) (hname : decName old p v = .ok b)
    (hroom : valueRoom old p b = .error e) : RoundEnds m old p v s n := by
  have hno : ∀ {b' len}, decName old p v = .ok b' → valueRoom old p b' ≠ .ok len := by
    intro b' len hb' hlen
    cases hname.symm.trans hb'
    cases hroom.symm.trans hlen
  apply roundEnds_of_stop e hs
  · rw [decVarbindAlloc_eq, hname]
    show (decValueAlloc m old p s b.oid b.type b.ofs b.len >>= _) = _
    rw [decValueAlloc_noRoom hroom]
    cases e <;> rfl
  · rintro rfl h
    exact h.room b hname hroom
  · rintro rfl
    exact .room hname hroom
  · rintro rfl hcount
    refine ⟨?_, fun b' hb' => ?_, fun b' _ hb' hlen => absurd hlen (hno hb'),
      fun b' _ hb' hlen => absurd hlen (hno hb'), hcount⟩
    · rw [hname]
      exact nofun
    · cases hname.symm.trans hb'
      rw [hroom]
      exact nofun
  · rintro rfl k' hk'
    cases hk' with
    | name hb => cases hname.symm.trans hb
    | room => rfl
    | memory hb hlen => exact absurd hlen (hno hb)
    | value hb hlen => exact absurd hlen (hno hb)

/-- What a round does whose value gets as far as memory. -/
theorem decVarbindAlloc_room (hname : decName old p v = .ok b)
    (hroom : valueRoom old p b = .ok len) :
    decVarbindAlloc m old p v s = (varbindAlloc m s b.oid b.type len >>= fun r =>
      (match decVarValue old p b.type b.ofs b.len with
        | .ok value => pure (r.2.tailAdd { r.1 with value := some value })
        | .error e => (r.2.tailAdd r.1).check (.error e)) >>= fun s' => pure (b.next, s')) := by
  rw [decVarbindAlloc_eq, hname]
  show (decValueAlloc m old p s b.oid b.type b.ofs b.len >>= _) = _
  rw [decValueAlloc_room hroom, bind_assoc]

/-- A round without memory. -/
theorem roundEnds_of_short (hs : s.Counted n) (hname : decName old p v = .ok b)
    (hroom : valueRoom old p b = .ok len)
    (hshort : ∃ i < asks b.oid len, m.succeeds (s.calls + i) = false) :
    RoundEnds m old p v s n := by
  have heq := decVarbindAlloc_room (m := m) (s := s) hname hroom
  have hnot : ¬ ∀ i < asks b.oid len, m.succeeds (s.calls + i) = true := by
    obtain ⟨i, hi, hfail⟩ := hshort
    intro h
    rw [h i hi] at hfail
    cases hfail
  rw [varbindAlloc_short b.type hshort] at heq
  by_cases hasserts : m.asserts = true
  · rw [if_pos hasserts] at heq
    exact .fails heq (by decide) fun h => hnot (h.memory b len hname hroom hasserts)
  · rw [if_neg hasserts] at heq
    refine roundEnds_of_refuses heq (.memory hname hroom hshort) hs.lost (fun hcount => ?_) ?_
    · refine ⟨?_, fun b' hb' => ?_, fun b' len' hb' hlen' h => ?_, fun _ _ _ _ ha =>
        absurd ha hasserts, hcount⟩
      · rw [hname]
        exact nofun
      · cases hname.symm.trans hb'
        rw [hroom]
        exact nofun
      · cases hname.symm.trans hb'
        cases hroom.symm.trans hlen'
        exact absurd h hnot
    · intro k' hk'
      cases hk' with
      | name hb => cases hname.symm.trans hb
      | room => rfl
      | memory => rfl
      | value hb hlen h =>
        cases hname.symm.trans hb
        cases hroom.symm.trans hlen
        exact absurd h hnot

/-- A round with memory. -/
theorem roundEnds_of_enough (hs : s.Counted n) (hname : decName old p v = .ok b)
    (hroom : valueRoom old p b = .ok len)
    (henough : ∀ i < asks b.oid len, m.succeeds (s.calls + i)) : RoundEnds m old p v s n := by
  have heq := decVarbindAlloc_room (m := m) (s := s) hname hroom
  rw [varbindAlloc_enough b.type henough, ok_bind] at heq
  have hs' : ({ s with calls := s.calls + asks b.oid len } : Varbinds).Counted n :=
    ⟨hs.count, hs.length, hs.lost⟩
  -- There is no other way to be refused than by the value.
  have honly : ∀ k, Refuses m old p v s.calls k →
      k = 1 ∧ decVarValue old p b.type b.ofs b.len = .error .ARG := by
    intro k hk
    cases hk with
    | name hb => cases hname.symm.trans hb
    | room hb hlen =>
      cases hname.symm.trans hb
      cases hroom.symm.trans hlen
    | memory hb hlen hshort =>
      cases hname.symm.trans hb
      cases hroom.symm.trans hlen
      obtain ⟨i, hi, hfail⟩ := hshort
      rw [henough i hi] at hfail
      cases hfail
    | value hb hlen _ hdec =>
      cases hname.symm.trans hb
      exact ⟨rfl, hdec⟩
  have hsafe : decVarValue old p b.type b.ofs b.len ≠ .error .outOfBounds →
      (∀ k, Refuses m old p v s.calls k → n + k ≤ 256) → RoundSafe m old p v n s.calls := by
    intro hin hcount
    refine ⟨?_, fun b' hb' => ?_, fun b' len' hb' _ _ => ?_, fun b' len' hb' hlen' _ => ?_, hcount⟩
    · rw [hname]
      exact nofun
    · cases hname.symm.trans hb'
      rw [hroom]
      exact nofun
    · cases hname.symm.trans hb'
      exact hin
    · cases hname.symm.trans hb'
      cases hroom.symm.trans hlen'
      exact henough
  cases hdec : decVarValue old p b.type b.ofs b.len with
  | ok value =>
    rw [hdec] at heq honly hsafe
    have hno : ∀ k, ¬ Refuses m old p v s.calls k := fun k hk => by cases (honly k hk).2
    exact .passes heq (hs'.tailAdd _) (hsafe nofun fun k hk => absurd hk (hno k)) hno
  | error e =>
    rw [hdec] at heq
    cases e with
    | outOfBounds => exact .fails heq (by decide) fun h => h.value b len hname hroom henough hdec
    | ARG =>
      exact roundEnds_of_refuses heq (.value hname hroom henough hdec) (hs'.tailAdd _).lost
        (hsafe (by rw [hdec]; exact nofun)) fun k hk => (honly k hk).1

end Named

/-- The conditions on a round are exact. -/
theorem roundEnds (m : Malloc) (old : ℕ → ℤ) (p : List (List UInt8)) (v : DecVars)
    (hs : s.Counted n) : RoundEnds m old p v s n := by
  cases hname : decName old p v with
  | error e => exact roundEnds_of_name hs hname
  | ok b =>
    cases hroom : valueRoom old p b with
    | error e => exact roundEnds_of_room hs hname hroom
    | ok len =>
      by_cases henough : ∀ i < asks b.oid len, m.succeeds (s.calls + i) = true
      · exact roundEnds_of_enough hs hname hroom henough
      · refine roundEnds_of_short hs hname hroom ?_
        simpa using henough

end Round

end Lwip.Snmp
