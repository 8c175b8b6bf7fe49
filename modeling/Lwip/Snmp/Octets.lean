import Lwip.Snmp.Asn1
import Mathlib.Algebra.Order.BigOperators.Group.List
import Mathlib.Algebra.Order.Group.Nat
import Mathlib.Algebra.Order.Ring.Int

/-!
# The octets of ASN.1 fields

What the functions of `asn1_enc.c` write, as lists of octets. Each of them writes its list octet by
octet (`encLength_eq` and the others), with one exception: `snmp_asn1_enc_oid` moves on behind the
prefix also if there is nothing more to write (`encOid_pair`). The counts of the `_cnt` functions
are the lengths of these lists, where no sub-identifier is negative.
-/

namespace Lwip.Snmp

/-- A length field. -/
def lengthOctets (length : ℕ) : List UInt8 :=
  if length < 0x80 then [octet length]
  else if length < 0x100 then [0x81, octet length]
  else [0x82, octet (length / 2^8 : ℤ), octet length]

/-- The octets of a value, the most significant one first. -/
def valueOctets (value : ℤ) : ℕ → List UInt8
  | n + 2 => octet (value / 2^(8 * (n + 1))) :: valueOctets value (n + 1)
  | _ => [octet value]

/-- An unsigned value, with a leading zero octet if it needs five. -/
def u32tOctets (octets_needed value : ℕ) : List UInt8 :=
  if octets_needed = 5 then 0x00 :: valueOctets value 4 else valueOctets value octets_needed

/-- The octets of a sub-identifier but for the last one. -/
def subIdCodes (sub_id : ℤ) : (rounds : ℕ) → (tail : Bool) → List UInt8
  | 0, _ => []
  | rounds + 1, tail =>
    let code := octet (sub_id / 2^(7 * (rounds + 1)))
    if code ≠ 0 ∨ tail = true then (code ||| 0x80) :: subIdCodes sub_id rounds true
    else subIdCodes sub_id rounds tail

/-- A sub-identifier. -/
def subIdOctets (sub_id : ℤ) : List UInt8 := subIdCodes sub_id 4 false ++ [octet sub_id &&& 0x7f]

/-- The first two elements. -/
def prefixOctet (a b : ℤ) : UInt8 := if a = 1 ∧ b = 3 then 0x2b else octet (a * 40 + b)

/-- An object identifier. -/
def oidOctets : (ident : List ℤ) → List UInt8
  | a :: b :: ident => prefixOctet a b :: ident.flatMap subIdOctets
  | _ => []

/-! ## What is written -/

/-- The first octet and the rest. -/
theorem writeAll_cons (b : UInt8) {bs : List UInt8} (h : bs ≠ []) :
    writeAll (b :: bs) = (do put b; step; writeAll bs) := by
  cases bs with
  | nil => exact absurd rfl h
  | cons b' bs => rfl

/-- A length is written octet by octet. -/
theorem encLength_eq (length : ℕ) : encLength length = writeAll (lengthOctets length) := by
  unfold encLength lengthOctets
  split
  · rfl
  split
  · rfl
  · rfl

/-- A number has an octet. -/
theorem valueOctets_ne_nil (value : ℤ) (n : ℕ) : valueOctets value n ≠ [] := by
  unfold valueOctets
  split <;> exact List.cons_ne_nil _ _

/-- The octets of a number are written one by one. -/
theorem encValue_eq (value : ℤ) (n : ℕ) : encValue value n = writeAll (valueOctets value n) := by
  fun_induction encValue value n with
  | case1 n ih =>
    rw [ih, valueOctets, writeAll_cons _ (valueOctets_ne_nil value (n + 1))]
  | case2 n h =>
    unfold valueOctets
    split
    · exact absurd rfl (h _)
    · rfl

/-- A number is written octet by octet. -/
theorem encU32t_eq (n value : ℕ) : encU32t n value = writeAll (u32tOctets n value) := by
  unfold encU32t u32tOctets
  split
  · rw [writeAll_cons _ (valueOctets_ne_nil value 4), encValue_eq]
  · exact encValue_eq value n

/-- A string is written octet by octet. -/
theorem encRaw_eq (raw : List UInt8) : encRaw raw = writeAll raw := by
  fun_induction encRaw raw with
  | case1 => rfl
  | case2 b => rfl
  | case3 b b' raw ih => rw [ih, writeAll]

/-- The octets of a sub-identifier in front of others. -/
theorem encSubId_writeAll (sub_id : ℤ) (rounds : ℕ) (tail : Bool) {bs : List UInt8} (h : bs ≠ []) :
    (do encSubId sub_id rounds tail; writeAll bs) = writeAll
    (subIdCodes sub_id rounds tail ++ bs) := by
  induction rounds generalizing tail with
  | zero => rfl
  | succ rounds ih =>
    unfold encSubId subIdCodes
    dsimp only
    split
    · rw [List.cons_append, writeAll_cons _ (List.append_ne_nil_of_right_ne_nil _ h), ← ih]
      simp only [walk_bind_assoc]
    · exact ih tail

/-- A sub-identifier has an octet. -/
theorem subIdOctets_ne_nil (sub_id : ℤ) : subIdOctets sub_id ≠ [] :=
  List.append_ne_nil_of_right_ne_nil _ (List.cons_ne_nil _ _)

/-- Sub-identifiers have octets. -/
theorem flatMap_subIdOctets_ne_nil {ident : List ℤ} (h : ident ≠ []) :
    ident.flatMap subIdOctets ≠ [] := by
  cases ident with
  | nil => exact absurd rfl h
  | cons sub_id ident =>
    rw [List.flatMap_cons]
    exact List.append_ne_nil_of_left_ne_nil (subIdOctets_ne_nil sub_id) _

/-- Sub-identifiers are written octet by octet. -/
theorem encSubIds_eq (ident : List ℤ) : encSubIds ident = writeAll (ident.flatMap subIdOctets) := by
  induction ident with
  | nil => rfl
  | cons sub_id ident ih =>
    unfold encSubIds
    rw [List.flatMap_cons, subIdOctets, List.append_assoc, List.singleton_append,
      ← encSubId_writeAll sub_id 4 false (List.cons_ne_nil _ _)]
    by_cases hnil : ident = []
    · subst hnil
      -- Behind the last octet nothing is left to do.
      have hput := walk_bind_unit (put (octet sub_id &&& 0x7f))
      show _ = (do encSubId sub_id 4 false; put (octet sub_id &&& 0x7f))
      conv_rhs => rw [← hput]
      rfl
    · rw [writeAll_cons _ (flatMap_subIdOctets_ne_nil hnil), ih]
      simp only [hnil, ne_eq, not_false_eq_true, if_true]

/-- An object identifier of three elements or more. -/
theorem encOid_eq (a b : ℤ) {ident : List ℤ} (h : ident ≠ []) :
    encOid (a :: b :: ident) = writeAll (oidOctets (a :: b :: ident)) := by
  unfold encOid oidOctets
  rw [writeAll_cons _ (flatMap_subIdOctets_ne_nil h), ← encSubIds_eq]
  rfl

/-- Behind two elements the walk moves on. -/
theorem encOid_pair (a b : ℤ) : encOid [a, b] = (do put (prefixOctet a b); step; pure ()) := rfl

/-! ## Counts -/

/-- An octet of a signed number. -/
theorem octet_toNat (v : ℤ) : ((octet v).toNat : ℤ) = v % 2^8 := by
  unfold octet
  rw [UInt8.toNat_ofNat']
  omega

/-- An octet of a positive number. -/
theorem octet_ne_zero {v : ℤ} (h : 0 ≤ v) (hlt : v < 2^8) : octet v ≠ 0 ↔ 0 < v := by
  have hv := octet_toNat v
  rw [ne_eq, ← UInt8.toNat_inj, UInt8.toNat_zero]
  omega

/-- The count of a length. -/
theorem lengthOctets_length (length : ℕ) : (lengthOctets length).length = encLengthCnt length := by
  unfold lengthOctets encLengthCnt
  split
  · rfl
  split <;> rfl

/-- The count of a number. -/
theorem u32tOctets_length (value : ℕ) :
    (u32tOctets (encU32tCnt value) value).length = encU32tCnt value := by
  unfold u32tOctets encU32tCnt
  split
  · rfl
  split
  · rfl
  split
  · rfl
  split <;> rfl

/-- The count of a signed number. -/
theorem encS32tOctets_length (value : ℤ) :
    (valueOctets value (encS32tCnt value)).length = encS32tCnt value := by
  unfold encS32tCnt
  dsimp only
  generalize (if value < 0 then -value - 1 else value) = v
  split
  · rfl
  split
  · rfl
  split <;> rfl

section SubId

variable {sub_id : ℤ}

/-- Seven bits more. -/
theorem two_pow_seven (k : ℕ) : (2 : ℤ)^(7 * (k + 1)) = 2^(7 * k) * 2^7 := by
  rw [Nat.mul_succ, pow_add]

/-- Enough rounds count the groups of seven bits. -/
theorem encOidGroups_stable {k : ℕ} (h : sub_id < 2^(7 * k)) :
    encOidGroups (k + 1) sub_id = encOidGroups k sub_id := by
  induction k generalizing sub_id with
  | zero =>
    have hle : ¬ sub_id > 0 := by
      rw [Nat.mul_zero, pow_zero] at h
      omega
    exact if_neg hle
  | succ k ih =>
    rw [two_pow_seven] at h
    show (if sub_id > 0 then encOidGroups (k + 1) (sub_id / 2^7) + 1 else 0) = _
    rw [ih (Int.ediv_lt_of_lt_mul (by decide) h), encOidGroups]

/-- A large sub-identifier takes all groups. -/
theorem encOidGroups_full {k : ℕ} (h : 2^(7 * k) ≤ sub_id) :
    encOidGroups (k + 1) sub_id = k + 1 := by
  induction k generalizing sub_id with
  | zero =>
    have hpos : sub_id > 0 := by
      rw [Nat.mul_zero, pow_zero] at h
      omega
    rw [encOidGroups, if_pos hpos]
    rfl
  | succ k ih =>
    rw [two_pow_seven] at h
    have hpos : (0 : ℤ) < 2^(7 * k) := pow_pos (by decide) _
    rw [encOidGroups, if_pos (by omega), ih (Int.le_ediv_of_mul_le (by decide) h)]

/-- All groups are written behind the first one. -/
theorem subIdCodes_true_length (sub_id : ℤ) (k : ℕ) : (subIdCodes sub_id k true).length = k := by
  induction k with
  | zero => rfl
  | succ k ih =>
    unfold subIdCodes
    dsimp only
    rw [if_pos (.inr rfl), List.length_cons, ih]

/-- The count of the groups. -/
theorem subIdCodes_length (h : 0 ≤ sub_id) {k : ℕ} (hlt : sub_id < 2^(7 * (k + 1))) :
    (subIdCodes sub_id k false).length = encOidGroups k (sub_id / 2^7) := by
  induction k with
  | zero => rfl
  | succ k ih =>
    have hpow := two_pow_seven (k + 1)
    have hpos : (0 : ℤ) < 2^(7 * (k + 1)) := pow_pos (by decide) _
    have hcode : octet (sub_id / 2^(7 * (k + 1))) ≠ 0 ↔ 2^(7 * (k + 1)) ≤ sub_id := by
      rw [octet_ne_zero (Int.ediv_nonneg h (Int.le_of_lt hpos))]
      · have hone : ∀ q : ℤ, 0 < q ↔ 1 ≤ q := fun q => Iff.rfl
        rw [hone, Int.le_ediv_iff_mul_le hpos, one_mul]
      · apply Int.ediv_lt_of_lt_mul hpos
        omega
    unfold subIdCodes
    dsimp only
    by_cases hge : 2^(7 * (k + 1)) ≤ sub_id
    · rw [if_pos (.inl (hcode.mpr hge)), List.length_cons, subIdCodes_true_length]
      rw [two_pow_seven] at hge
      rw [encOidGroups_full (Int.le_ediv_of_mul_le (by decide) hge)]
    · have hlt' : sub_id < 2^(7 * (k + 1)) := Int.not_le.mp hge
      rw [if_neg (by simpa using mt hcode.mp hge), ih hlt']
      rw [two_pow_seven] at hlt'
      rw [encOidGroups_stable (Int.ediv_lt_of_lt_mul (by decide) hlt')]

/-- The count of a sub-identifier that is not negative is right. -/
theorem subIdOctets_length (h : 0 ≤ sub_id) (hlt : sub_id < 2^31) :
    (subIdOctets sub_id).length = subIdCnt sub_id := by
  unfold subIdOctets subIdCnt
  rw [List.length_append, subIdCodes_length h (by omega), encOidGroups_stable (k := 4) (by omega)]
  rfl

/-- There are not more groups than rounds. -/
theorem encOidGroups_le (k : ℕ) (sub_id : ℤ) : encOidGroups k sub_id ≤ k := by
  induction k generalizing sub_id with
  | zero => exact Nat.le_refl _
  | succ k ih =>
    unfold encOidGroups
    split
    · exact Nat.succ_le_succ (ih _)
    · exact Nat.zero_le _

/-- A bound on the count of an identifier. -/
theorem subIdCnt_sum_le (ident : List ℤ) : (ident.map subIdCnt).sum ≤ ident.length * 6 := by
  rw [← List.length_map subIdCnt]
  apply List.sum_le_card_nsmul
  intro n hn
  obtain ⟨sub_id, -, rfl⟩ := List.mem_map.mp hn
  exact Nat.succ_le_succ (encOidGroups_le 5 _)

/-- The count of an identifier whose elements are not negative is right. -/
theorem oidOctets_length {ident : List ℤ} (hlen : 2 ≤ ident.length) (hle : ident.length ≤ 32)
    (h : ∀ sub_id ∈ ident, 0 ≤ sub_id ∧ sub_id < 2^31) :
    (oidOctets ident).length = encOidCnt ident := by
  match ident with
  | [] | [_] => simp at hlen
  | a :: b :: ident =>
    have hsum := subIdCnt_sum_le ident
    have hmap : ident.map (List.length ∘ subIdOctets) = ident.map subIdCnt := by
      apply List.map_congr_left
      intro sub_id hsub
      obtain ⟨h0, hlt⟩ := h sub_id (List.mem_cons_of_mem _ (List.mem_cons_of_mem _ hsub))
      exact subIdOctets_length h0 hlt
    simp only [List.length_cons] at hle
    have hu8 : u8 (1 + (ident.map subIdCnt).sum) = 1 + (ident.map subIdCnt).sum :=
      Nat.mod_eq_of_lt (by omega)
    show (prefixOctet a b :: ident.flatMap subIdOctets).length = u8 (1 + (ident.map subIdCnt).sum)
    rw [hu8, List.length_cons, List.length_flatMap, ← Function.comp_def, hmap, Nat.add_comm]

end SubId

end Lwip.Snmp
