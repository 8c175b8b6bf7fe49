import Lwip.Snmp.Listed

/-!
# The list of bindings of a message

`snmp_pdu_dec_varbindlist` with the memory for the bindings. What it accepts has been read by rounds
that pass, and all of its bindings are in memory (`decVarbindsAlloc_ok`). Where a binding is
refused, those in the list are freed; with more than the 256 that the count of the list can tell, it
starts anew and loses those before (`Varbinds.tailAdd`). With memory for all bindings, the list is
the one that is read without a look at the memory (`pduDecVarbindlistAlloc_forget`).
-/

namespace Lwip.Snmp

/-! ## Memory -/

/-- `mem_malloc`, which succeeds or not by its number of calls; and whether the program has its
assertions, that is, not `LWIP_NOASSERT`. -/
structure Malloc where
  succeeds : ℕ → Bool
  asserts : Bool

/-- A `struct snmp_varbind` in memory. The value is `none` until it is written. -/
structure InVarbind where
  ident : List ℤ
  value_type : UInt8
  value_len : ℕ
  value : Option VarValue
  deriving DecidableEq, Repr

/-- The list `m_stat->invb`; the bindings that are in no list any more; and the calls of
`mem_malloc`. -/
structure Varbinds where
  invb : List InVarbind
  count : ℕ
  lost : List InVarbind
  calls : ℕ
  deriving DecidableEq, Repr

/-- Why there is no list: `ERR_ARG`, with the bindings that are not freed then, or the program
stops, by an assertion or because it leaves the payload of an empty pbuf. -/
inductive Refusal where
  | ARG (left : List InVarbind)
  | assertion
  | outOfBounds
  deriving DecidableEq, Repr

/-- `snmp_varbind_tail_add`. -/
def Varbinds.tailAdd (s : Varbinds) (vb : InVarbind) : Varbinds :=
  -- add first varbind to list
  if s.count = 0 then { s with invb := [vb], count := u8 (s.count + 1), lost := s.lost ++ s.invb }
  else { s with invb := s.invb ++ [vb], count := u8 (s.count + 1) }

/-- `snmp_varbind_list_free(&m_stat->invb); return ERR_ARG;`. -/
def Varbinds.refuse {α : Type} (s : Varbinds) : Except Refusal α := .error (.ARG s.lost)

/-- `derr = …; if (derr != ERR_OK)`. -/
def Varbinds.check {α : Type} (s : Varbinds) : Except Stop α → Except Refusal α
  | .ok a => .ok a
  | .error .ARG => s.refuse
  | .error .outOfBounds => .error .outOfBounds

/-- `mem_malloc`, and the assertion that it succeeds. -/
def memMalloc (m : Malloc) (s : Varbinds) : Except Refusal (Bool × Varbinds) :=
  if m.asserts ∧ m.succeeds s.calls = false then .error .assertion
  else .ok (m.succeeds s.calls, { s with calls := s.calls + 1 })

/-- `snmp_varbind_alloc`, and `derr = ERR_ARG` for `NULL`. -/
def varbindAlloc (m : Malloc) (s : Varbinds) (oid : List ℤ) (type : UInt8) (len : ℕ) :
    Except Refusal (InVarbind × Varbinds) := do
  let (vb, s) ← memMalloc m s
  if vb then
    let (ident, s) ← (if oid.length > 0 then memMalloc m s else pure (true, s))
    if ident then
      -- ASN1_NUL type, or zero length ASN1_OC_STR
      let (value, s) ← (if len > 0 then memMalloc m s else pure (true, s))
      if value then pure (⟨oid, type, len, none⟩, s) else s.refuse
    else s.refuse
  else s.refuse

/-- The `len` of `snmp_varbind_alloc`, for the values that are read to the memory that it
returns. -/
def valueLen (type : UInt8) (len : ℕ) : Option ℕ :=
  if type = SNMP_ASN1_UNIV ||| SNMP_ASN1_PRIMIT ||| SNMP_ASN1_INTEG then some 4
  else if type = SNMP_ASN1_APPLIC ||| SNMP_ASN1_PRIMIT ||| SNMP_ASN1_COUNTER then some 4
  else if type = SNMP_ASN1_APPLIC ||| SNMP_ASN1_PRIMIT ||| SNMP_ASN1_GAUGE then some 4
  else if type = SNMP_ASN1_APPLIC ||| SNMP_ASN1_PRIMIT ||| SNMP_ASN1_TIMETICKS then some 4
  else if type = SNMP_ASN1_UNIV ||| SNMP_ASN1_PRIMIT ||| SNMP_ASN1_OC_STR then some (u8 len)
  else if type = SNMP_ASN1_APPLIC ||| SNMP_ASN1_PRIMIT ||| SNMP_ASN1_OPAQUE then some (u8 len)
  else if type = SNMP_ASN1_UNIV ||| SNMP_ASN1_PRIMIT ||| SNMP_ASN1_NUL then some 0
  else if type = SNMP_ASN1_APPLIC ||| SNMP_ASN1_PRIMIT ||| SNMP_ASN1_IPADDR then
    -- must be exactly 4 octets!
    if len = 4 then some 4 else none
  else none

/-- `switch (type)`. -/
def decValueAlloc (m : Malloc) (old : ℕ → ℤ) (p : List (List UInt8)) (s : Varbinds) (oid : List ℤ)
    (type : UInt8) (ofs len : ℕ) : Except Refusal Varbinds := do
  if type = SNMP_ASN1_UNIV ||| SNMP_ASN1_PRIMIT ||| SNMP_ASN1_OBJ_ID then
    let oid_value ← s.check (walk (decOid old len) p ofs).1
    let (vb, s) ← varbindAlloc m s oid type (u8 (oid_value.length * 4))
    pure (s.tailAdd { vb with value := some (.OBJ_ID oid_value) })
  else
    match valueLen type len with
    | none => s.refuse
    | some value_len =>
      let (vb, s) ← varbindAlloc m s oid type value_len
      match decVarValue old p type ofs len with
      | .ok value => pure (s.tailAdd { vb with value := some value })
      -- also a binding without a value is in the list when it is freed
      | .error e => (s.tailAdd vb).check (.error e)

/-- A round of the loop. -/
def decVarbindAlloc (m : Malloc) (old : ℕ → ℤ) (p : List (List UInt8)) (v : DecVars)
    (s : Varbinds) : Except Refusal (DecVars × Varbinds) := do
  let type := readType p v.ofs v.type
  let (len_octets, len) ← s.check (walk decLength p (u16 (v.ofs + 1))).1
  if type ≠ SNMP_ASN1_UNIV ||| SNMP_ASN1_CONSTR ||| SNMP_ASN1_SEQ ∨ len = 0 ∨
    len > v.vb_len then s.refuse
  else
    let ofs := u16 (v.ofs + (1 + len_octets))
    let vb_len := u16sub v.vb_len (1 + len_octets)
    let type := readType p ofs type
    let (len_octets, len) ← s.check (walk decLength p (u16 (ofs + 1))).1
    if type ≠ SNMP_ASN1_UNIV ||| SNMP_ASN1_PRIMIT ||| SNMP_ASN1_OBJ_ID then s.refuse
    else
      let oid ← s.check (walk (decOid old len) p (u16 (ofs + 1 + len_octets))).1
      let ofs := u16 (ofs + (1 + len_octets + len))
      let vb_len := u16sub vb_len (1 + len_octets + len)
      let type := readType p ofs type
      let (len_octets, len) ← s.check (walk decLength p (u16 (ofs + 1))).1
      let s ← decValueAlloc m old p s oid type (u16 (ofs + 1 + len_octets)) len
      pure (⟨type, u16 (ofs + (1 + len_octets + len)), u16sub vb_len (1 + len_octets + len)⟩, s)

/-- `while (vb_len > 0)`. A message can make it go on for ever, so that the rounds are bounded here.
In the round for the binding `i`, `old i` is in the arrays for identifiers before. -/
def decVarbindsAlloc (m : Malloc) (old : ℕ → ℕ → ℤ) (p : List (List UInt8)) :
    (fuel : ℕ) → DecVars → Varbinds → Option (Except Refusal (ℕ × Varbinds))
  | 0, _, _ => none
  | fuel + 1, v, s =>
    if v.vb_len > 0 then
      match decVarbindAlloc m (old (s.lost ++ s.invb).length) p v s with
      | .error e => some (.error e)
      | .ok (v, s) => decVarbindsAlloc m old p fuel v s
    else some (.ok (v.ofs, s))

/-- `snmp_pdu_dec_varbindlist`: `ofs_ret` and the bindings, where `type` is on the stack before. -/
def pduDecVarbindlistAlloc (m : Malloc) (type : UInt8) (old : ℕ → ℕ → ℤ) (fuel : ℕ)
    (p : List (List UInt8)) (ofs : ℕ) :
    Option (Except Refusal (ℕ × Varbinds)) :=
  -- start with empty list
  let s : Varbinds := ⟨[], 0, [], 0⟩
  let type := readType p ofs type
  match s.check (walk decLength p (u16 (ofs + 1))).1 with
  | .error e => some (.error e)
  | .ok (len_octets, vb_len) =>
    if type ≠ SNMP_ASN1_UNIV ||| SNMP_ASN1_CONSTR ||| SNMP_ASN1_SEQ then some s.refuse
    else decVarbindsAlloc m old p fuel ⟨type, u16 (ofs + (1 + len_octets)), vb_len⟩ s

/-! ## Rounds with memory -/

/-- A binding in memory. -/
def InVarbind.Holds (a : InVarbind) (vb : VarBind) : Prop :=
  a.ident = vb.ident ∧ a.value_type = vb.value.value_type ∧ a.value = some vb.value

section Memory

variable {α : Type} {m : Malloc} {s s' : Varbinds} {p : List (List UInt8)} {old : ℕ → ℤ}
  {v v' : DecVars}

/-- No binding is in neither of the lists. -/
theorem Varbinds.tailAdd_all (s : Varbinds) (a : InVarbind) :
    (s.tailAdd a).lost ++ (s.tailAdd a).invb = s.lost ++ s.invb ++ [a] := by
  unfold tailAdd
  split
  · rfl
  · exact (List.append_assoc _ _ _).symm

/-- What is checked is the result. -/
theorem check_ok {x : Except Stop α} {a : α} (h : s.check x = .ok a) : x = .ok a := by
  cases x with
  | ok b =>
    cases h
    rfl
  | error e => cases e <;> cases h

/-- An allocation that succeeds is counted. -/
theorem memMalloc_ok {r : Bool × Varbinds} (h : memMalloc m s = .ok r) :
    ∃ calls, r.2 = { s with calls } := by
  unfold memMalloc at h
  split at h
  · cases h
  · cases h
    exact ⟨_, rfl⟩

/-- A binding that is allocated has its fields, without a value yet. -/
theorem varbindAlloc_ok {oid : List ℤ} {type : UInt8} {len : ℕ} {r : InVarbind × Varbinds}
    (h : varbindAlloc m s oid type len = .ok r) :
    r.1 = ⟨oid, type, len, none⟩ ∧ ∃ calls, r.2 = { s with calls } := by
  have hmaybe : ∀ {c : Prop} [Decidable c] {s : Varbinds} {r : Bool × Varbinds},
      (if c then memMalloc m s else pure (true, s)) = .ok r → ∃ calls, r.2 = { s with calls } := by
    intro c _ s r h
    split at h
    · exact memMalloc_ok h
    · cases h
      exact ⟨s.calls, rfl⟩
  unfold varbindAlloc at h
  obtain ⟨⟨vb, _⟩, hvb, h⟩ := bind_eq_ok.mp h
  obtain ⟨calls, rfl⟩ := memMalloc_ok hvb
  dsimp only at h
  split at h
  · obtain ⟨⟨ident, _⟩, hident, h⟩ := bind_eq_ok.mp h
    obtain ⟨calls, rfl⟩ := hmaybe hident
    dsimp only at h
    split at h
    · obtain ⟨⟨value, _⟩, hvalue, h⟩ := bind_eq_ok.mp h
      obtain ⟨calls, rfl⟩ := hmaybe hvalue
      dsimp only at h
      split at h
      · cases h
        exact ⟨rfl, calls, rfl⟩
      · cases h
    · cases h
  · cases h

/-- The value of an identifier is read by its own function. -/
theorem decVarValue_OBJ_ID (ofs len : ℕ) :
    decVarValue old p OID_TYPE ofs len = .OBJ_ID <$> (walk (decOid old len) p ofs).1 := rfl

/-- The value of a binding is read, and the binding is in the list then. -/
theorem decValueAlloc_ok {oid : List ℤ} {type : UInt8} {ofs len : ℕ}
    (h : decValueAlloc m old p s oid type ofs len = .ok s') :
    ∃ value calls a, decVarValue old p type ofs len = .ok value ∧ a.Holds ⟨oid, value⟩ ∧
      s' = { s with calls }.tailAdd a := by
  unfold decValueAlloc at h
  split at h
  · next htype =>
    obtain rfl : type = OID_TYPE := htype
    obtain ⟨oid_value, hvalue, h⟩ := bind_eq_ok.mp h
    obtain ⟨⟨vb, _⟩, halloc, h⟩ := bind_eq_ok.mp h
    obtain ⟨hvb, calls, hs⟩ := varbindAlloc_ok halloc
    dsimp only at hvb hs
    subst hvb hs
    cases h
    refine ⟨.OBJ_ID oid_value, calls, _, ?_, ⟨rfl, rfl, rfl⟩, rfl⟩
    rw [decVarValue_OBJ_ID, check_ok hvalue]
    rfl
  · split at h
    · cases h
    · obtain ⟨⟨vb, _⟩, halloc, h⟩ := bind_eq_ok.mp h
      obtain ⟨hvb, calls, hs⟩ := varbindAlloc_ok halloc
      dsimp only at hvb hs h
      subst hvb hs
      split at h
      · next value hvalue =>
        cases h
        exact ⟨value, calls, _, hvalue, ⟨rfl, (decVarValue_type hvalue).symm, rfl⟩, rfl⟩
      · next e _ => cases e <;> cases h

/-- A round that passes is one that passes without a look at the memory, and its binding is in the
list then. -/
theorem decVarbindAlloc_ok (h : decVarbindAlloc m old p v s = .ok (v', s')) :
    ∃ vb calls a, decVarbind old p v = .ok (vb, v') ∧ a.Holds vb ∧
    s' = { s with calls }.tailAdd a := by
  unfold decVarbindAlloc at h
  obtain ⟨⟨k, len⟩, hseq, h⟩ := bind_eq_ok.mp h
  dsimp only at h
  split at h
  · cases h
  next hfirst =>
  obtain ⟨⟨k₁, len₁⟩, hname, h⟩ := bind_eq_ok.mp h
  dsimp only at h
  split at h
  · cases h
  next hoid =>
  obtain ⟨oid, hident, h⟩ := bind_eq_ok.mp h
  obtain ⟨⟨k₂, len₂⟩, hvalue, h⟩ := bind_eq_ok.mp h
  obtain ⟨s'', hdec, h⟩ := bind_eq_ok.mp h
  cases h
  obtain ⟨value, calls, a, hread, ha, rfl⟩ := decValueAlloc_ok hdec
  refine ⟨⟨oid, value⟩, calls, a, ?_, ha, rfl⟩
  unfold decVarbind
  refine bind_eq_ok.mpr ⟨_, check_ok hseq, ?_⟩
  dsimp only
  rw [if_neg hfirst]
  refine bind_eq_ok.mpr ⟨_, check_ok hname, ?_⟩
  dsimp only
  rw [if_neg hoid]
  exact bind_eq_ok.mpr ⟨_, check_ok hident, bind_eq_ok.mpr ⟨_, check_ok hvalue,
    bind_eq_ok.mpr ⟨_, hread, rfl⟩⟩⟩

/-- A list that is accepted has been read by rounds that pass, and all of its bindings are in
memory. -/
theorem decVarbindsAlloc_ok {old : ℕ → ℕ → ℤ} {fuel : ℕ} {r : ℕ × Varbinds}
    (h : decVarbindsAlloc m old p fuel v s = some (.ok r)) :
    ∃ vbs as v', Rounds p v vbs v' ∧ v'.vb_len = 0 ∧ v'.ofs = r.1 ∧
      List.Forall₂ InVarbind.Holds as vbs ∧ r.2.lost ++ r.2.invb = s.lost ++ s.invb ++ as := by
  induction fuel generalizing v s with
  | zero => cases h
  | succ fuel ih =>
    unfold decVarbindsAlloc at h
    split at h
    · next hpos =>
      split at h
      · cases h
      · next v' s' hok =>
        obtain ⟨vb, calls, a, hdec, ha, rfl⟩ := decVarbindAlloc_ok hok
        obtain ⟨vbs, as, v'', hrounds, hend, hofs, has, hall⟩ := ih h
        refine ⟨vb :: vbs, a :: as, v'', .cons hpos hdec hrounds, hend, hofs, .cons ha has, ?_⟩
        rw [hall, Varbinds.tailAdd_all, List.append_assoc _ [a]]
        rfl
    · next hend =>
      cases h
      exact ⟨[], [], v, .nil v, Nat.eq_zero_of_not_pos hend, rfl, .nil, (List.append_nil _).symm⟩

/-- If the lengths agree, then the loop ends: each round takes octets from the list. -/
theorem decVarbindsAlloc_ends {old : ℕ → ℕ → ℤ} {fuel : ℕ} (hgap : Gapless p)
    (hfits : p.flatten.length < 2^16) (hvb : v.vb_len < 2^16) (hfit : AllFit p v)
    (hfuel : v.vb_len < fuel) : ∃ r, decVarbindsAlloc m old p fuel v s = some r := by
  induction fuel generalizing v s with
  | zero => exact absurd hfuel (Nat.not_lt_zero _)
  | succ fuel ih =>
    unfold decVarbindsAlloc
    split
    · next hpos =>
      split
      · exact ⟨_, rfl⟩
      · next v' s' hok =>
        obtain ⟨vb, calls, a, hdec, -, rfl⟩ := decVarbindAlloc_ok hok
        obtain ⟨o, -, -, -, -, ho, hlen⟩ :=
          (hfit [] _ _ _ _ (.nil v) hpos hdec).encodes hgap hfits hvb hdec
        have hlen : o.length + v'.vb_len = v.vb_len := hlen
        exact ih (by omega) (hfit.next hpos hdec) (by omega)
    · exact ⟨_, rfl⟩

/-- More fuel does not change the result. -/
theorem decVarbindsAlloc_mono {old : ℕ → ℕ → ℤ} {fuel fuel' : ℕ} {v : DecVars}
    {r : Except Refusal (ℕ × Varbinds)} (h : decVarbindsAlloc m old p fuel v s = some r)
    (hle : fuel ≤ fuel') : decVarbindsAlloc m old p fuel' v s = some r := by
  induction fuel generalizing fuel' v s with
  | zero => cases h
  | succ fuel ih =>
    obtain ⟨fuel', rfl⟩ : ∃ k, fuel' = k + 1 := ⟨fuel' - 1, by omega⟩
    unfold decVarbindsAlloc at h ⊢
    split
    · next hpos =>
      rw [if_pos hpos] at h
      split
      · next e he =>
        rw [he] at h
        exact h
      · next v' s' hok =>
        rw [hok] at h
        exact ih h (Nat.le_of_succ_le_succ hle)
    · next hend =>
      rw [if_neg hend] at h
      exact h

end Memory

/-! ## With memory for all bindings -/

/-- The list as it is without a look at the memory. -/
def Varbinds.root (s : Varbinds) : VarbindRoot :=
  ⟨s.invb.map fun a => ⟨a.ident, a.value.getD .NUL⟩, s.count⟩

/-- Why there is no list, without a look at the memory. -/
def Refusal.stop : Refusal → Stop
  | ARG _ | assertion => .ARG
  | outOfBounds => .outOfBounds

/-- A result without a look at the memory. -/
def forget {α β : Type} (f : α → β) : Except Refusal α → Except Stop β
  | .ok a => .ok (f a)
  | .error e => .error e.stop

section Forget

variable {α β γ : Type} {m : Malloc} {s : Varbinds} {p : List (List UInt8)} {old : ℕ → ℤ}

/-- The check does not matter without the memory. -/
theorem forget_check (g : β → γ) (s : Varbinds) (x : Except Stop α) (f : α → Except Refusal β) :
    forget g (s.check x >>= f) = x >>= fun a => forget g (f a) := by
  cases x with
  | ok a => rfl
  | error e => cases e <;> rfl

/-- The pair does not matter without the memory. -/
theorem forget_pair {δ : Type} {x : Except Refusal α} {y : Except Stop β} {g : α → γ} {f : β → γ}
    (w : δ) (h : forget g x = f <$> y) :
    forget (fun r => (r.1, g r.2)) (x >>= fun a => pure (w, a)) = y >>= fun b => .ok (w, f b) := by
  cases x with
  | error e =>
    cases y with
    | error e' => exact congrArg Except.error (Except.error.inj h)
    | ok b => cases h
  | ok a =>
    cases y with
    | error e' => cases h
    | ok b => exact congrArg (fun c => Except.ok (w, c)) (Except.ok.inj h)

/-- The list without the memory gets the binding. -/
theorem root_tailAdd {a : InVarbind} {value : VarValue} (h : a.value = some value) :
    (s.tailAdd a).root = s.root.tailAdd ⟨a.ident, value⟩ := by
  unfold Varbinds.tailAdd VarbindRoot.tailAdd Varbinds.root
  by_cases hcount : s.count = 0
  · rw [if_pos hcount, if_pos hcount, List.map_singleton, h]
    rfl
  · rw [if_neg hcount, if_neg hcount, List.map_append, List.map_singleton, h]
    rfl

/-- With memory for all, a binding is allocated. -/
theorem varbindAlloc_memory (hm : ∀ i, m.succeeds i) (s : Varbinds) (oid : List ℤ)
    (type : UInt8) (len : ℕ) :
    ∃ calls, varbindAlloc m s oid type len = .ok (⟨oid, type, len, none⟩, { s with calls }) := by
  have hmalloc : ∀ s : Varbinds, memMalloc m s = .ok (true, { s with calls := s.calls + 1 }) := by
    intro s
    unfold memMalloc
    rw [hm, if_neg (by simp)]
  have hmaybe : ∀ (c : Prop) [Decidable c] (s : Varbinds), ∃ calls,
      (if c then memMalloc m s else pure (true, s)) = .ok (true, { s with calls }) := by
    intro c _ s
    split
    · exact ⟨_, hmalloc s⟩
    · exact ⟨_, rfl⟩
  obtain ⟨calls₁, hident⟩ := hmaybe (oid.length > 0) { s with calls := s.calls + 1 }
  obtain ⟨calls₂, hvalue⟩ := hmaybe (len > 0) { s with calls := calls₁ }
  refine ⟨calls₂, ?_⟩
  unfold varbindAlloc
  exact bind_eq_ok.mpr ⟨_, hmalloc s, bind_eq_ok.mpr ⟨_, hident, bind_eq_ok.mpr ⟨_, hvalue, rfl⟩⟩⟩

/-- Where no memory is asked for, the type or the length is a wrong one. -/
theorem valueLen_none {type : UInt8} {len : ℕ} (h : valueLen type len = none)
    (htype : type ≠ SNMP_ASN1_UNIV ||| SNMP_ASN1_PRIMIT ||| SNMP_ASN1_OBJ_ID) (ofs : ℕ) :
    decVarValue old p type ofs len = .error .ARG := by
  unfold valueLen at h
  unfold decVarValue
  split at h
  · cases h
  next h₁ =>
  split at h
  · cases h
  next h₂ =>
  split at h
  · cases h
  next h₃ =>
  split at h
  · cases h
  next h₄ =>
  split at h
  · cases h
  next h₅ =>
  split at h
  · cases h
  next h₆ =>
  split at h
  · cases h
  next h₇ =>
  rw [if_neg h₁, if_neg h₂, if_neg h₃, if_neg h₄, if_neg h₅, if_neg h₆, if_neg h₇, if_neg htype]
  split at h
  · next h₈ =>
    split at h
    · cases h
    · next hlen => rw [if_pos h₈, if_neg hlen]
  · next h₈ => rw [if_neg h₈]

/-- With memory for all, the value is the one that is read. -/
theorem decValueAlloc_forget (hm : ∀ i, m.succeeds i) (s : Varbinds) (oid : List ℤ) (type : UInt8)
    (ofs len : ℕ) :
    forget Varbinds.root (decValueAlloc m old p s oid type ofs len) =
      (fun value => s.root.tailAdd ⟨oid, value⟩) <$> decVarValue old p type ofs len := by
  unfold decValueAlloc
  split
  · next htype =>
    obtain rfl : type = OID_TYPE := htype
    rw [forget_check, decVarValue_OBJ_ID]
    cases (walk (decOid old len) p ofs).1 with
    | error e => rfl
    | ok oid_value =>
      obtain ⟨calls, halloc⟩ := varbindAlloc_memory hm s oid OID_TYPE (u8 (oid_value.length * 4))
      show forget Varbinds.root
        (varbindAlloc m s oid OID_TYPE (u8 (oid_value.length * 4)) >>= _) = _
      rw [halloc]
      exact congrArg Except.ok (root_tailAdd rfl)
  · next htype =>
    split
    · next hlen =>
      rw [valueLen_none hlen htype]
      rfl
    · next value_len _ =>
      obtain ⟨calls, halloc⟩ := varbindAlloc_memory hm s oid type value_len
      rw [halloc]
      show forget Varbinds.root (match decVarValue old p type ofs len with
        | .ok value => _
        | .error e => _) = _
      cases decVarValue old p type ofs len with
      | error e => cases e <;> rfl
      | ok value => exact congrArg Except.ok (root_tailAdd rfl)

/-- With memory for all, a round is the one without the memory. -/
theorem decVarbindAlloc_forget (hm : ∀ i, m.succeeds i) (v : DecVars) (s : Varbinds) :
    forget (fun r => (r.1, r.2.root)) (decVarbindAlloc m old p v s) =
      (fun r => (r.2, s.root.tailAdd r.1)) <$> decVarbind old p v := by
  unfold decVarbindAlloc decVarbind
  rw [forget_check, map_bind]
  refine congrArg ((walk decLength p (u16 (v.ofs + 1))).1 >>= ·) (funext fun ⟨k, n⟩ => ?_)
  dsimp only
  split
  · rfl
  rw [forget_check, map_bind]
  refine congrArg ((walk decLength p _).1 >>= ·) (funext fun ⟨k₁, n₁⟩ => ?_)
  dsimp only
  split
  · rfl
  rw [forget_check, map_bind]
  refine congrArg ((walk (decOid old n₁) p _).1 >>= ·) (funext fun oid => ?_)
  rw [forget_check, map_bind]
  refine congrArg ((walk decLength p _).1 >>= ·) (funext fun ⟨k₂, n₂⟩ => ?_)
  rw [map_bind]
  exact forget_pair _ (decValueAlloc_forget hm s oid _ _ _)

/-- With memory for all, the loop is the one without the memory. -/
theorem decVarbindsAlloc_forget (hm : ∀ i, m.succeeds i) (fuel : ℕ) (v : DecVars) (s : Varbinds) :
    (decVarbindsAlloc m (fun _ => old) p fuel v s).map (forget fun r => (r.1, r.2.root)) =
      decVarbinds old p fuel v s.root := by
  induction fuel generalizing v s with
  | zero => rfl
  | succ fuel ih =>
    unfold decVarbindsAlloc decVarbinds
    split
    · have hround : forget _ (decVarbindAlloc m old p v s) = _ <$> decVarbind old p v :=
        decVarbindAlloc_forget hm v s
      generalize decVarbindAlloc m old p v s = x at hround ⊢
      generalize decVarbind old p v = y at hround ⊢
      cases x with
      | error e =>
        cases y with
        | error e' =>
          obtain rfl : e.stop = e' := Except.error.inj hround
          rfl
        | ok r' => cases hround
      | ok r =>
        cases y with
        | error e' => cases hround
        | ok r' =>
          have hsame : (r.1, r.2.root) = (r'.2, s.root.tailAdd r'.1) := Except.ok.inj hround
          obtain ⟨hvars, hroot⟩ := Prod.mk.inj hsame
          dsimp only
          rw [ih, hvars, hroot]
    · rfl

/-- With memory for all bindings, the list is the one that is read without a look at the memory. -/
theorem pduDecVarbindlistAlloc_forget (hm : ∀ i, m.succeeds i) (type : UInt8) (fuel ofs : ℕ) :
    (pduDecVarbindlistAlloc m type (fun _ => old) fuel p ofs).map
    (forget fun r => (r.1, r.2.root)) =
      pduDecVarbindlist type old fuel p ofs := by
  unfold pduDecVarbindlistAlloc pduDecVarbindlist
  cases (walk decLength p (u16 (ofs + 1))).1 with
  | error e => cases e <;> rfl
  | ok r =>
    dsimp only [Varbinds.check]
    split
    · rfl
    · exact decVarbindsAlloc_forget hm fuel _ _

end Forget

end Lwip.Snmp
