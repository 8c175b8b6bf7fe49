import Lwip.Dhcp.Options
import Lwip.Lib.Tlv
import Lwip.Arch
import Mathlib.Data.Nat.Basic

/-!
# Options within a DHCP reply

`dhcp_get_option_ptr` once more, with each read checked: the search reads the octets of the field
that it is in, and no others. Next to it stand the options of the reply as they are sent: a pad is
one octet, the end stops a field, and what the options field does not have is in `file` and then in
`sname`, where the overload option says so.

The two agree in `Plain` fields: pads stand in pairs, the overload has one octet, and the option
that is looked for is not cut off. Outside of them they can agree by chance only, and where even
that is impossible (`Usual`) the condition is exact.
-/

namespace Lwip.Dhcp

/-! ## The search -/

/-- How a search for an option goes wrong. -/
inductive Wrong where
  /-- A read outside the field. -/
  | outside
  /-- The loop does not come to an end. -/
  | hang
  deriving DecidableEq, Repr

/-- What a loop ends with: the offset of the option, or `overload`. -/
inductive Scan where
  | found (offset : ℕ)
  | absent (overload : UInt8)
  deriving DecidableEq, Repr

/-- `options[offset]`. -/
def octet (options : Mem) (offset : ℕ) : Except Wrong UInt8 :=
  inMemory .outside options[offset]?

/-- The two loops of `dhcp_get_option_ptr`. Only the first one looks for the overload option. -/
def searchLoop (first : Bool) (option_type : UInt8) (options : Mem) :
    (fuel offset : ℕ) → (overload : UInt8) → Except Wrong Scan
  | 0, _, _ => .error .hang
  | fuel + 1, offset, overload =>
    if offset < options.length then do
      let code ← octet options offset
      if code = DHCP_OPTION_END then .ok (.absent overload)
      else if first ∧ code = DHCP_OPTION_OVERLOAD then do
        let overload ← octet options (u16 (offset + 2))
        searchLoop first option_type options fuel (u16 (offset + 3)) overload
      else if code = option_type then .ok (.found offset)
      else do
        let n ← octet options (u16 (offset + 1))
        searchLoop first option_type options fuel (u16 (offset + 2 + n.toNat)) overload
    else .ok (.absent overload)

/-- `msg_in` and `options_in`. -/
structure Unfolded where
  msg_in : Mem
  options_in : Mem
  deriving DecidableEq, Repr

/-- A place in the options, or in the message. -/
inductive Ptr where
  | options (offset : ℕ)
  | msg (offset : ℕ)
  deriving DecidableEq, Repr

/-- `len` octets of the message. -/
def Unfolded.field (u : Unfolded) (offset len : ℕ) : Mem := (u.msg_in.drop offset).take len

/-- The second loop, over the overloaded field. -/
def searchField (u : Unfolded) (option_type : UInt8) (offset len : ℕ) :
    Except Wrong (Option Ptr) := do
  match ← searchLoop false option_type (u.field offset len) (len + 1) 0 0 with
  | .found k => .ok (some (.msg (offset + k)))
  | .absent _ => .ok none

/-- What `dhcp_get_option_ptr` does when the option is not in the options field. -/
def searchOverloaded (u : Unfolded) (option_type overload : UInt8) : Except Wrong (Option Ptr) :=
  if overload = 0 then .ok none
  else if overload = 1 then searchField u option_type fileOffset fileLen
  else if overload = 2 then searchField u option_type snameOffset snameLen
  -- overloaded sname and file field
  else searchField u option_type snameOffset (fileLen + snameLen)

/-- `dhcp_get_option_ptr`. -/
def dhcpGetOptionPtrChecked (u : Unfolded) (option_type : UInt8) : Except Wrong (Option Ptr) := do
  if u.options_in.length > 0 then
    match ← searchLoop true option_type u.options_in (u.options_in.length + 1) 0 0 with
    | .found k => .ok (some (.options k))
    | .absent overload => searchOverloaded u option_type overload
  else .ok none

/-! ## The options of a reply -/

/-- `DHCP_OPTION_PAD`. -/
def DHCP_OPTION_PAD : UInt8 := 0

/-- The options of a field. -/
def optionsOf (offset : ℕ) (field : Mem) :
    List Tlv := tlvs DHCP_OPTION_PAD DHCP_OPTION_END offset field

/-- The offset of the first option with this code. -/
def firstOf (option_type : UInt8) (items : List Tlv) : Option ℕ :=
  (items.find? fun i => i.code = option_type).map Tlv.offset

/-- The octet of the last overload option. -/
def overloadOf (overload : UInt8) (items : List Tlv) : UInt8 :=
  items.foldl (fun v i => if i.code = DHCP_OPTION_OVERLOAD then i.value.headD v else v) overload

/-- The octet of the overload option of a reply, or 0. -/
def Unfolded.overload (u : Unfolded) : UInt8 := overloadOf 0 (optionsOf 0 u.options_in)

/-- The first option with this code in a field of the message. -/
def Unfolded.optionIn (u : Unfolded) (option_type : UInt8) (offset len : ℕ) : Option Ptr :=
  (firstOf option_type (optionsOf 0 (u.field offset len))).map fun k => .msg (offset + k)

/-- The first option with this code in the fields that are overloaded. -/
def Unfolded.overloaded (u : Unfolded) (option_type : UInt8) : Option Ptr :=
  (if u.overload = 1 ∨ u.overload = 3 then u.optionIn option_type fileOffset fileLen
    else none).or <|
    if u.overload = 2 ∨ u.overload = 3 then u.optionIn option_type snameOffset snameLen else none

/-- The first option with this code in the reply. -/
def Unfolded.option (u : Unfolded) (option_type : UInt8) : Option Ptr :=
  ((firstOf option_type (optionsOf 0 u.options_in)).map .options).or (u.overloaded option_type)

/-! ## One step of a loop -/

/-- A loop over what is left of a field, which begins at `offset`. -/
def walk (first : Bool) (option_type : UInt8) (offset : ℕ) (overload : UInt8) :
    List UInt8 → Except Wrong Scan
  | [] => .ok (.absent overload)
  | code :: l =>
    if code = DHCP_OPTION_END then .ok (.absent overload)
    else if first ∧ code = DHCP_OPTION_OVERLOAD then
      match l with
      | _ :: overload :: l => walk first option_type (offset + 3) overload l
      | _ => .error .outside
    else if code = option_type then .ok (.found offset)
    else
      match l with
      | n :: l => walk first option_type (offset + 2 + n.toNat) overload (l.drop n.toNat)
      | [] => .error .outside
termination_by l => l.length
decreasing_by
  all_goals
    simp only [List.length_drop, List.length_cons]
    omega

section Walk

variable {first closed : Bool} {o code n v overload : UInt8} {options l t : Mem} {fuel offset : ℕ}

/-- At the end of the field the option is absent. -/
@[simp] theorem walk_nil : walk first o offset overload [] = .ok (.absent overload) := by
  rw [walk]

/-- The end option stops the field. -/
@[simp] theorem walk_end :
    walk first o offset overload (DHCP_OPTION_END :: l) = .ok (.absent overload) := by
  rw [walk.eq_def]
  dsimp only
  rw [if_pos rfl]

/-- The overload option, whatever its length octet is. -/
theorem walk_overload (hfirst : first = true) :
    walk first o offset overload (DHCP_OPTION_OVERLOAD :: n :: v :: l) = walk first o
    (offset + 3) v l := by
  rw [walk.eq_def]
  dsimp only
  rw [if_neg (by decide), if_pos ⟨hfirst, rfl⟩]

/-- The option is found. -/
theorem walk_found (hend : o ≠ DHCP_OPTION_END) (hload : ¬ (first ∧ o = DHCP_OPTION_OVERLOAD)) :
    walk first o offset overload (o :: l) = .ok (.found offset) := by
  rw [walk.eq_def]
  dsimp only
  rw [if_neg hend, if_neg hload, if_pos rfl]

/-- Any other code is skipped with its length, a pad as well. -/
theorem walk_skip (hend : code ≠ DHCP_OPTION_END) (hload : ¬ (first ∧ code = DHCP_OPTION_OVERLOAD))
    (ho : code ≠ o) :
    walk first o offset overload (code :: n :: l) =
      walk first o (offset + 2 + n.toNat) overload (l.drop n.toNat) := by
  rw [walk.eq_def]
  dsimp only
  rw [if_neg hend, if_neg hload, if_neg ho]

/-- An option without a length octet is read outside of the field. -/
theorem walk_single (hend : code ≠ DHCP_OPTION_END) (ho : code ≠ o) :
    walk first o offset overload [code] = .error .outside := by
  rw [walk.eq_def]
  dsimp only
  rw [if_neg hend, if_neg ho, ite_self]

/-- The octet at `offset + k` is the one at `k` of what is left. -/
theorem octet_add (options : Mem) (offset k : ℕ) :
    octet options (offset + k) = octet (options.drop offset) k := by
  rw [octet, octet, List.getElem?_drop]

/-- In a field that is not too long the offset does not wrap, and the loop comes to its end. -/
theorem searchLoop_eq_walk (hlen : options.length + 257 ≤ 2^16)
    (hfuel : (options.drop offset).length < fuel) :
    searchLoop first o options fuel offset overload = walk first o offset overload
    (options.drop offset) := by
  induction fuel generalizing offset overload with
  | zero => exact absurd hfuel (Nat.not_lt_zero _)
  | succ fuel ih =>
    rw [searchLoop]
    cases hl : options.drop offset with
    | nil =>
      rw [if_neg (Nat.not_lt.mpr (List.drop_eq_nil_iff.mp hl)), walk_nil]
    | cons code l =>
      have hoff : offset < options.length := by
        by_contra hge
        rw [List.drop_eq_nil_of_le (Nat.not_lt.mp hge)] at hl
        cases hl
      have hread : ∀ k, octet options (offset + k) = octet (code :: l) k :=
        fun k => hl ▸ octet_add options offset k
      have hcode : octet options offset = .ok code := hread 0
      have hdrop : ∀ k, options.drop (offset + 1 + k) = l.drop k := by
        intro k
        rw [Nat.add_assoc, ← List.drop_drop, hl, Nat.add_comm, List.drop_succ_cons]
      have hwrap : ∀ k ≤ 257, u16 (offset + k) = offset + k :=
        fun k hk => Nat.mod_eq_of_lt (by omega)
      have hrest : ∀ k ≥ 1, (options.drop (offset + k)).length < fuel := by
        intro k hk
        rw [List.length_drop] at hfuel ⊢
        omega
      rw [if_pos hoff, walk.eq_def, hcode]
      dsimp only [bind, Except.bind]
      split
      · rfl
      split
      · -- The overload option is three octets long.
        rw [hwrap 2 (by omega), hwrap 3 (by omega), hread 2]
        match l with
        | [] => rfl
        | [_] => rfl
        | a :: v :: l =>
          have hv : octet (code :: a :: v :: l) 2 = .ok v := rfl
          rw [hv]
          dsimp only
          rw [ih (hrest 3 (by omega)), hdrop 2]
          rfl
      split
      · rfl
      · rw [hwrap 1 (by omega), hread 1]
        cases l with
        | nil => rfl
        | cons n l =>
          have hn : octet (code :: n :: l) 1 = .ok n := rfl
          have hlt := n.toNat_lt
          rw [hn]
          dsimp only
          rw [Nat.add_assoc, hwrap (2 + n.toNat) (by omega), ih (hrest _ (by omega)),
            ← Nat.add_assoc]
          have hskip := hdrop (1 + n.toNat)
          rw [Nat.add_comm 1 n.toNat, List.drop_succ_cons] at hskip
          rw [← hskip]
          congr 2
          omega

/-- The first loop takes every overload option for one, also when that is what is looked for. -/
theorem walk_overload_ne_found (k : ℕ) : walk true DHCP_OPTION_OVERLOAD offset overload l ≠ .ok
    (.found k) := by
  induction h : l.length using Nat.strong_induction_on generalizing l offset overload with
  | _ m ih =>
    subst h
    match l with
    | [] => rw [walk_nil]; nofun
    | code :: l =>
      rw [walk.eq_def]
      dsimp only
      split
      · nofun
      split
      · split
        · exact ih _ (by simp only [List.length_cons]; omega) rfl
        · nofun
      · next hcode =>
        rw [if_neg fun h => hcode ⟨rfl, h⟩]
        split
        · exact ih _ (by simp only [List.length_drop, List.length_cons]; omega) rfl
        · nofun

end Walk

/-! ## Fields in which they agree -/

/-- What a loop should end with, where these are the options of the field. -/
def Scan.of (first : Bool) (option_type overload : UInt8) (items : List Tlv) : Scan :=
  match firstOf option_type items with
  | some k => .found k
  | none => .absent (if first then overloadOf overload items else overload)

/-- The offset of the option that is found. -/
def Scan.offset? : Scan → Option ℕ
  | .found k => some k
  | .absent _ => none

/-- Pads stand in pairs, the overload option has one octet, and the option that is looked for is
complete. A `closed` field has an end marker, or the option. -/
inductive Plain (first closed : Bool) (o : UInt8) : List UInt8 → Prop where
  | nil : closed = false → Plain first closed o []
  | stop (l : List UInt8) : Plain first closed o (DHCP_OPTION_END :: l)
  | pads {l : List UInt8} : Plain first closed o l →
      Plain first closed o (DHCP_OPTION_PAD :: DHCP_OPTION_PAD :: l)
  | overload {v : UInt8} {l : List UInt8} : first = true → o ≠ DHCP_OPTION_OVERLOAD →
    Plain first closed o l →
      Plain first closed o (DHCP_OPTION_OVERLOAD :: 1 :: v :: l)
  | found {n : UInt8} {l : List UInt8} : ¬ (first ∧ o = DHCP_OPTION_OVERLOAD) → n.toNat ≤ l.length →
      Plain first closed o (o :: n :: l)
  | skip {code n : UInt8} {l : List UInt8} : code ≠ DHCP_OPTION_END → code ≠ DHCP_OPTION_PAD →
      ¬ (first ∧ code = DHCP_OPTION_OVERLOAD) → code ≠ o → Plain first closed o (l.drop n.toNat) →
      Plain first closed o (code :: n :: l)

/-- The fields in which the loop is right only if they are `Plain`: where it takes a pad for the
code of an option, or an overload option for three octets, it is right about their length. -/
inductive Usual (first : Bool) (o : UInt8) : List UInt8 → Prop where
  | nil : Usual first o []
  | single (code : UInt8) : Usual first o [code]
  | stop (l : List UInt8) : Usual first o (DHCP_OPTION_END :: l)
  | pads {l : List UInt8} : Usual first o l →
    Usual first o (DHCP_OPTION_PAD :: DHCP_OPTION_PAD :: l)
  | overload_cut (n : UInt8) : first = true → Usual first o [DHCP_OPTION_OVERLOAD, n]
  | overload {v : UInt8} {l : List UInt8} : first = true → Usual first o l →
      Usual first o (DHCP_OPTION_OVERLOAD :: 1 :: v :: l)
  | found (n : UInt8) (l : List UInt8) : ¬ (first ∧ o = DHCP_OPTION_OVERLOAD) →
    Usual first o (o :: n :: l)
  | skip {code n : UInt8} {l : List UInt8} : code ≠ DHCP_OPTION_END → code ≠ DHCP_OPTION_PAD →
      ¬ (first ∧ code = DHCP_OPTION_OVERLOAD) → code ≠ o → Usual first o (l.drop n.toNat) →
      Usual first o (code :: n :: l)

section Fields

variable {first closed : Bool} {o overload code n v : UInt8} {l t value : Mem} {offset : ℕ}
  {i : Tlv} {items : List Tlv}

/-- No options. -/
theorem Scan.of_nil : Scan.of first o overload [] = .absent overload := by
  cases first <;> rfl

/-- The first option is the one. -/
theorem firstOf_cons_self : firstOf o (⟨offset, o, value⟩ :: items) = some offset := by
  simp [firstOf]

/-- The first option is another one. -/
theorem firstOf_cons_of_ne (h : i.code ≠ o) : firstOf o (i :: items) = firstOf o items := by
  simp [firstOf, h]

/-- The scan ends at the option. -/
theorem Scan.of_found : Scan.of first o overload (⟨offset, o, value⟩ :: items) = .found offset := by
  rw [Scan.of, firstOf_cons_self]

/-- The scan skips another option. -/
theorem Scan.of_skip (h : i.code ≠ o) (hload : ¬ (first ∧ i.code = DHCP_OPTION_OVERLOAD)) :
    Scan.of first o overload (i :: items) = Scan.of first o overload items := by
  have hover : (if first then overloadOf overload (i :: items) else overload) =
      if first then overloadOf overload items else overload := by
    split
    · next hfirst => rw [overloadOf, List.foldl_cons, if_neg fun h => hload ⟨hfirst, h⟩,
        ← overloadOf]
    · rfl
  rw [Scan.of, Scan.of, firstOf_cons_of_ne h, hover]

/-- The scan notes the overload option. -/
theorem Scan.of_overload (hfirst : first = true) (h : i.code ≠ o)
    (hload : i.code = DHCP_OPTION_OVERLOAD)
    (hv : i.value = [v]) : Scan.of first o overload (i :: items) = Scan.of first o v items := by
  have hover : overloadOf overload (i :: items) = overloadOf v items := by
    rw [overloadOf, List.foldl_cons, if_pos hload, hv]
    rfl
  rw [Scan.of, Scan.of, firstOf_cons_of_ne h, if_pos hfirst, if_pos hfirst, hover]

/-- The scan finds the first of the options. -/
@[simp] theorem Scan.offset?_of : (Scan.of first o overload items).offset? = firstOf o items := by
  rw [Scan.of]
  cases firstOf o items <;> rfl

/-- Two pads are skipped. -/
theorem optionsOf_pads :
    optionsOf offset (DHCP_OPTION_PAD :: DHCP_OPTION_PAD :: l) = optionsOf (offset + 2) l := by
  rw [optionsOf, tlvs_pad (by decide), tlvs_pad (by decide), optionsOf]

/-- An option that is there, and those behind it. -/
theorem optionsOf_cons (hend : code ≠ DHCP_OPTION_END) (hpad : code ≠ DHCP_OPTION_PAD)
    (hn : n.toNat ≤ l.length) : optionsOf offset (code :: n :: l) =
      ⟨offset, code, l.take n.toNat⟩ :: optionsOf (offset + 2 + n.toNat) (l.drop n.toNat) :=
  tlvs_cons hend hpad hn

/-- The overload option takes three octets. -/
theorem optionsOf_overload : optionsOf offset (DHCP_OPTION_OVERLOAD :: 1 :: v :: l) =
    ⟨offset, DHCP_OPTION_OVERLOAD, [v]⟩ :: optionsOf (offset + 3) l :=
  optionsOf_cons (by decide) (by decide) (Nat.succ_le_succ (Nat.zero_le l.length))

/-- Nothing is behind an option that is cut off. -/
theorem optionsOf_cut (hpad : code ≠ DHCP_OPTION_PAD) (hcut : l.length < n.toNat) :
    optionsOf offset (code :: n :: l) = optionsOf (offset + 2 + n.toNat) (l.drop n.toNat) := by
  rw [optionsOf, optionsOf, tlvs_cut hpad hcut,
    List.drop_eq_nil_of_le (Nat.le_of_lt hcut), tlvs_nil]

/-- Another option is skipped. -/
theorem Scan.of_option (hend : code ≠ DHCP_OPTION_END) (hpad : code ≠ DHCP_OPTION_PAD)
    (hload : ¬ (first ∧ code = DHCP_OPTION_OVERLOAD)) (hcode : code ≠ o) :
    Scan.of first o overload (optionsOf offset (code :: n :: l)) =
      Scan.of first o overload (optionsOf (offset + 2 + n.toNat) (l.drop n.toNat)) := by
  obtain hcut | hn := Nat.lt_or_ge l.length n.toNat
  · rw [optionsOf_cut hpad hcut]
  · rw [optionsOf_cons hend hpad hn, Scan.of_skip hcode hload]

/-- The loop skips two pads. -/
theorem walk_pads (hpad : o ≠ DHCP_OPTION_PAD) :
    walk first o offset overload (DHCP_OPTION_PAD :: DHCP_OPTION_PAD :: l) =
      walk first o (offset + 2) overload l :=
  walk_skip (by decide) (fun h => absurd h.2 (by decide)) hpad.symm

/-- In a plain field, with nothing behind it or an end in it, the loop finds what is there. -/
theorem Plain.walk_eq (hend : o ≠ DHCP_OPTION_END) (hpad : o ≠ DHCP_OPTION_PAD)
    (h : Plain first closed o l) (ht : closed = false → t = []) :
    walk first o offset overload (l ++ t) = .ok
    (Scan.of first o overload (optionsOf offset l)) := by
  induction h generalizing offset overload with
  | nil hclosed => rw [ht hclosed, optionsOf, tlvs_nil, Scan.of_nil, List.append_nil, walk_nil]
  | stop l => rw [optionsOf, tlvs_stop, Scan.of_nil, List.cons_append, walk_end]
  | pads _ ih =>
    rw [optionsOf_pads, List.cons_append, List.cons_append, walk_pads hpad]
    exact ih
  | overload hfirst ho _ ih =>
    rw [optionsOf_overload, Scan.of_overload hfirst ho.symm rfl rfl, List.cons_append,
      List.cons_append, List.cons_append, walk_overload hfirst]
    exact ih
  | found hload hn =>
    rw [optionsOf_cons hend hpad hn, Scan.of_found, List.cons_append, walk_found hend hload]
  | @skip code n l hend' hpad' hload hcode hrest ih =>
    rw [Scan.of_option hend' hpad' hload hcode, ← ih, List.cons_append, List.cons_append,
      walk_skip hend' hload hcode]
    obtain hcut | hn := Nat.lt_or_ge l.length n.toNat
    · -- The field is not closed, so that there is nothing behind it.
      rw [List.drop_eq_nil_of_le (Nat.le_of_lt hcut)] at hrest ⊢
      cases hrest with
      | nil hclosed =>
        rw [ht hclosed, List.append_nil, List.append_nil,
          List.drop_eq_nil_of_le (Nat.le_of_lt hcut)]
    · rw [List.drop_append_of_le_length hn]

/-- From the beginning of the field. -/
theorem Plain.walk_start (hend : o ≠ DHCP_OPTION_END) (hpad : o ≠ DHCP_OPTION_PAD)
    (h : Plain first false o l) : walk first o 0 0 l = .ok (Scan.of first o 0 (optionsOf 0 l)) := by
  have hwalk : walk first o 0 0 (l ++ []) = _ := h.walk_eq hend hpad fun _ => rfl
  rwa [List.append_nil] at hwalk

/-- A usual field in which the loop finds what is there is plain. -/
theorem Usual.plain_of_walk {r : Scan} (hend : o ≠ DHCP_OPTION_END) (hpad : o ≠ DHCP_OPTION_PAD)
    (h : Usual first o l) (hwalk : walk first o offset overload l = .ok r)
    (hr : r.offset? = firstOf o (optionsOf offset l)) : Plain first false o l := by
  induction h generalizing offset overload with
  | nil => exact .nil rfl
  | single code =>
    rw [optionsOf, tlvs_singleton] at hr
    by_cases hcode : code = DHCP_OPTION_END
    · exact hcode ▸ .stop []
    · by_cases ho : code = o
      · by_cases hload : first ∧ o = DHCP_OPTION_OVERLOAD
        · rw [walk.eq_def] at hwalk
          dsimp only at hwalk
          rw [if_neg hcode, if_pos (ho ▸ hload)] at hwalk
          cases hwalk
        · rw [ho, walk_found hend hload] at hwalk
          cases hwalk
          cases hr
      · rw [walk_single hcode ho] at hwalk
        cases hwalk
  | stop l => exact .stop l
  | pads _ ih =>
    rw [walk_pads hpad] at hwalk
    rw [optionsOf_pads] at hr
    exact .pads (ih hwalk hr)
  | overload_cut n hfirst =>
    rw [walk.eq_def] at hwalk
    dsimp only at hwalk
    rw [if_neg (by decide), if_pos ⟨hfirst, rfl⟩] at hwalk
    cases hwalk
  | @overload v l hfirst _ ih =>
    rw [optionsOf_overload] at hr
    by_cases ho : o = DHCP_OPTION_OVERLOAD
    · -- The option is there, and is not found.
      subst ho hfirst
      rw [firstOf_cons_self] at hr
      cases r with
      | found k => exact absurd hwalk (walk_overload_ne_found k)
      | absent v => cases hr
    · rw [firstOf_cons_of_ne (Ne.symm ho)] at hr
      rw [walk_overload hfirst] at hwalk
      exact .overload hfirst ho (ih hwalk hr)
  | found n l hload =>
    rw [walk_found hend hload] at hwalk
    cases hwalk
    obtain hcut | hn := Nat.lt_or_ge l.length n.toNat
    · rw [optionsOf, tlvs_cut hpad hcut] at hr
      cases hr
    · exact .found hload hn
  | @skip code n l hend' hpad' hload hcode _ ih =>
    rw [walk_skip hend' hload hcode] at hwalk
    have hsame : Scan.of first o overload (optionsOf offset (code :: n :: l)) = _ :=
      Scan.of_option hend' hpad' hload hcode
    have hsame := congrArg Scan.offset? hsame
    rw [Scan.offset?_of, Scan.offset?_of] at hsame
    rw [hsame] at hr
    exact .skip hend' hpad' hload hcode (ih hwalk hr)

end Fields

/-! ## Replies in which they agree -/

/-- The field that is overloaded is plain. Where there are two, `sname` has an end, and `file` does
not have the option. -/
inductive PlainOverload (u : Unfolded) (o : UInt8) : Prop where
  | zero : u.overload = 0 → PlainOverload u o
  | file : u.overload = 1 → Plain false false o (u.field fileOffset fileLen) → PlainOverload u o
  | sname : u.overload = 2 → Plain false false o (u.field snameOffset snameLen) → PlainOverload u o
  | both : u.overload = 3 → Plain false true o (u.field snameOffset snameLen) →
      u.optionIn o fileOffset fileLen = none → PlainOverload u o

/-- The fields in which the option is looked for are plain. -/
structure PlainReply (u : Unfolded) (o : UInt8) : Prop where
  options : Plain true false o u.options_in
  overloaded : firstOf o (optionsOf 0 u.options_in) = none → PlainOverload u o

/-- One field at most is overloaded, and it is usual. -/
inductive UsualOverload (u : Unfolded) (o : UInt8) : Prop where
  | zero : u.overload = 0 → UsualOverload u o
  | file : u.overload = 1 → Usual false o (u.field fileOffset fileLen) → UsualOverload u o
  | sname : u.overload = 2 → Usual false o (u.field snameOffset snameLen) → UsualOverload u o

/-- The fields in which the option is looked for are usual. -/
structure UsualReply (u : Unfolded) (o : UInt8) : Prop where
  options : Usual true o u.options_in
  overloaded : firstOf o (optionsOf 0 u.options_in) = none → UsualOverload u o

section Replies

variable {u : Unfolded} {o : UInt8} {offset len : ℕ}

/-- The search of a field is the loop over its octets. -/
theorem searchField_eq (hlen : len ≤ fileLen + snameLen) : searchField u o offset len =
    (walk false o 0 0 (u.field offset len)).map fun r => r.offset?.map fun k => .msg
    (offset + k) := by
  have hfield : (u.field offset len).length ≤ len := List.length_take_le len (u.msg_in.drop offset)
  have hbound : (u.field offset len).length + 257 ≤ 2^16 := by
    have hmax : fileLen + snameLen = 192 := rfl
    omega
  rw [searchField, searchLoop_eq_walk hbound (Nat.lt_succ_of_le hfield), List.drop_zero]
  cases walk false o 0 0 (u.field offset len) with
  | error e => rfl
  | ok r => cases r <;> rfl

/-- The search of a plain field finds the option. -/
theorem searchField_of_plain (hend : o ≠ DHCP_OPTION_END) (hpad : o ≠ DHCP_OPTION_PAD)
    (hlen : len ≤ fileLen + snameLen) (h : Plain false false o (u.field offset len)) :
    searchField u o offset len = .ok (u.optionIn o offset len) := by
  rw [searchField_eq hlen, h.walk_start hend hpad, Except.map, Scan.offset?_of, Unfolded.optionIn]

/-- A field that is searched rightly is plain, if it is a usual one. -/
theorem plain_of_searchField (hend : o ≠ DHCP_OPTION_END) (hpad : o ≠ DHCP_OPTION_PAD)
    (hlen : len ≤ fileLen + snameLen) (h : Usual false o (u.field offset len))
    (hsearch : searchField u o offset len = .ok (u.optionIn o offset len)) :
    Plain false false o (u.field offset len) := by
  rw [searchField_eq hlen] at hsearch
  cases hwalk : walk false o 0 0 (u.field offset len) with
  | error e =>
    rw [hwalk] at hsearch
    cases hsearch
  | ok r =>
    rw [hwalk] at hsearch
    have hinj : Function.Injective fun k => Ptr.msg (offset + k) :=
      fun a b hab => Nat.add_left_cancel (Ptr.msg.inj hab)
    exact h.plain_of_walk hend hpad hwalk (Option.map_injective hinj (Except.ok.inj hsearch))

/-- `sname` and `file` lie one behind the other. -/
theorem field_both : u.field snameOffset (fileLen + snameLen) =
    u.field snameOffset snameLen ++ u.field fileOffset fileLen := by
  rw [Nat.add_comm, Unfolded.field, List.take_add, List.drop_drop]
  rfl

/-- With both fields overloaded, an option that is in `sname` only is found there. -/
theorem searchField_both (hend : o ≠ DHCP_OPTION_END) (hpad : o ≠ DHCP_OPTION_PAD)
    (h : Plain false true o (u.field snameOffset snameLen)) :
    searchField u o snameOffset (fileLen + snameLen) = .ok (u.optionIn o snameOffset snameLen) := by
  have hwalk : walk false o 0 0 (u.field snameOffset snameLen ++ u.field fileOffset fileLen) = _ :=
    h.walk_eq hend hpad nofun
  rw [searchField_eq le_rfl, field_both, hwalk, Except.map, Scan.offset?_of, Unfolded.optionIn]

/-- The search of the options, and of the other fields if they are overloaded. -/
theorem dhcpGetOptionPtrChecked_eq (hsize : u.options_in.length + 257 ≤ 2^16) :
    dhcpGetOptionPtrChecked u o = (walk true o 0 0 u.options_in).bind fun r =>
      match r with
      | .found k => .ok (some (.options k))
      | .absent overload => searchOverloaded u o overload := by
  rw [dhcpGetOptionPtrChecked]
  split
  · have hfuel : (u.options_in.drop 0).length < u.options_in.length + 1 := Nat.lt_succ_self _
    rw [searchLoop_eq_walk hsize hfuel, List.drop_zero]
    rfl
  · next hempty =>
    rw [List.length_eq_zero_iff.mp (Nat.eq_zero_of_not_pos hempty), walk_nil]
    rfl

/-- The search of plain fields finds the option. -/
theorem PlainOverload.search_eq (hend : o ≠ DHCP_OPTION_END) (hpad : o ≠ DHCP_OPTION_PAD)
    (h : PlainOverload u o) : searchOverloaded u o u.overload = .ok (u.overloaded o) := by
  rw [Unfolded.overloaded]
  cases h with
  | zero hload =>
    rw [hload]
    rfl
  | file hload hfile =>
    have hsearch := searchField_of_plain hend hpad (by decide) hfile
    rw [hload]
    exact hsearch.trans (by simp)
  | sname hload hsname =>
    have hsearch := searchField_of_plain hend hpad (by decide) hsname
    rw [hload]
    exact hsearch
  | both hload hsname hfile =>
    have hsearch := searchField_both hend hpad hsname
    rw [hload, hfile]
    exact hsearch

/-- Fields that are searched rightly are plain, if they are usual ones. -/
theorem UsualOverload.plain_of_search (hend : o ≠ DHCP_OPTION_END) (hpad : o ≠ DHCP_OPTION_PAD)
    (h : UsualOverload u o) (hsearch : searchOverloaded u o u.overload = .ok (u.overloaded o)) :
    PlainOverload u o := by
  rw [Unfolded.overloaded] at hsearch
  cases h with
  | zero hload => exact .zero hload
  | file hload hfile =>
    rw [hload] at hsearch
    exact .file hload (plain_of_searchField hend hpad (by decide) hfile (hsearch.trans (by simp)))
  | sname hload hsname =>
    rw [hload] at hsearch
    exact .sname hload (plain_of_searchField hend hpad (by decide) hsname hsearch)

/-- In a plain reply, `dhcp_get_option_ptr` finds the first option there is. -/
theorem PlainReply.search_eq (hsize : u.options_in.length + 257 ≤ 2^16) (hend : o ≠ DHCP_OPTION_END)
    (hpad : o ≠ DHCP_OPTION_PAD) (h : PlainReply u o) :
    dhcpGetOptionPtrChecked u o = .ok (u.option o) := by
  rw [dhcpGetOptionPtrChecked_eq hsize, h.options.walk_start hend hpad, Scan.of, Unfolded.option]
  cases hfirst : firstOf o (optionsOf 0 u.options_in) with
  | some k => rfl
  | none => exact (h.overloaded hfirst).search_eq hend hpad

/-- Nothing is found in the options field that the fields of the message have. -/
theorem overloaded_ne_options (k : ℕ) : u.overloaded o ≠ some (.options k) := by
  intro h
  rw [Unfolded.overloaded, Option.or_eq_some_iff] at h
  have hin : ∀ offset len, u.optionIn o offset len ≠ some (.options k) := by
    intro offset len h
    obtain ⟨j, -, h⟩ := Option.map_eq_some_iff.mp h
    cases h
  obtain h | ⟨-, h⟩ := h
  · split at h
    · exact hin _ _ h
    · cases h
  · split at h
    · exact hin _ _ h
    · cases h

/-- What is found in a field is not in the options. -/
theorem searchField_ne_options (hlen : len ≤ fileLen + snameLen) (k : ℕ) :
    searchField u o offset len ≠ .ok (some (.options k)) := by
  rw [searchField_eq hlen]
  cases walk false o 0 0 (u.field offset len) with
  | error e => nofun
  | ok r => cases r <;> nofun

/-- What is found in the other fields is not in the options. -/
theorem searchOverloaded_ne_options (overload : UInt8) (k : ℕ) :
    searchOverloaded u o overload ≠ .ok (some (.options k)) := by
  rw [searchOverloaded]
  split
  · nofun
  split
  · exact searchField_ne_options (by decide) k
  split
  · exact searchField_ne_options (by decide) k
  · exact searchField_ne_options le_rfl k

/-- A usual reply in which `dhcp_get_option_ptr` finds the first option there is is plain. -/
theorem UsualReply.plain_of_search (hsize : u.options_in.length + 257 ≤ 2^16)
    (hend : o ≠ DHCP_OPTION_END) (hpad : o ≠ DHCP_OPTION_PAD) (h : UsualReply u o)
    (hsearch : dhcpGetOptionPtrChecked u o = .ok (u.option o)) : PlainReply u o := by
  rw [dhcpGetOptionPtrChecked_eq hsize, Unfolded.option] at hsearch
  cases hwalk : walk true o 0 0 u.options_in with
  | error e =>
    rw [hwalk] at hsearch
    cases hsearch
  | ok r =>
    rw [hwalk] at hsearch
    have hr : r.offset? = firstOf o (optionsOf 0 u.options_in) := by
      cases r with
      | found k =>
        cases hfirst : firstOf o (optionsOf 0 u.options_in) with
        | some j =>
          rw [hfirst] at hsearch
          cases hsearch
          rfl
        | none =>
          rw [hfirst] at hsearch
          exact absurd (Except.ok.inj hsearch).symm (overloaded_ne_options k)
      | absent overload =>
        cases hfirst : firstOf o (optionsOf 0 u.options_in) with
        | some j =>
          rw [hfirst] at hsearch
          exact absurd hsearch (searchOverloaded_ne_options overload j)
        | none => rfl
    have hplain := h.options.plain_of_walk hend hpad hwalk hr
    refine ⟨hplain, fun hfirst => (h.overloaded hfirst).plain_of_search hend hpad ?_⟩
    -- The loop over a plain field ends with the overload octet of the reply.
    have hplain := hplain.walk_start hend hpad
    rw [hwalk, Scan.of, hfirst] at hplain
    rw [hfirst, Except.ok.inj hplain] at hsearch
    exact hsearch

end Replies

end Lwip.Dhcp
