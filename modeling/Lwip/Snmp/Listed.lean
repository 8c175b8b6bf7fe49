import Lwip.Snmp.Accepted
import Lwip.Snmp.Message
import Mathlib.Data.List.Forall2

/-!
# Bindings that are accepted

A round of the loop of `snmp_pdu_dec_varbindlist` compares the length of a binding with what is left
of the list, and with nothing else. If the lengths agree (`Lengths`), then what the round has read
is a binding, with the identifier that it returns (`Passed.encodes`); and if it is, then they agree
(`Passed.lengths`). The same holds for all the rounds to the end of the list (`Rounds.encoded`,
`Rounds.allFit`).
-/

namespace Lwip.Snmp

/-- The type of a sequence, and of an object identifier. -/
def SEQ_TYPE : UInt8 := SNMP_ASN1_UNIV ||| SNMP_ASN1_CONSTR ||| SNMP_ASN1_SEQ
def OID_TYPE : UInt8 := SNMP_ASN1_UNIV ||| SNMP_ASN1_PRIMIT ||| SNMP_ASN1_OBJ_ID
def NUL_TYPE : UInt8 := SNMP_ASN1_UNIV ||| SNMP_ASN1_PRIMIT ||| SNMP_ASN1_NUL

/-- `snmp_asn1_dec_length` behind the type at `ofs`. -/
def lengthAt (p : List (List UInt8)) (ofs : ℕ) :
    Except Stop (ℕ × ℕ) := (walk decLength p (u16 (ofs + 1))).1

/-- A binding, as it is encoded: a name and a value, and nothing else. -/
def Encodes (o : List UInt8) (vb : VarBind) : Prop :=
  ∃ name value oid val, Element OID_TYPE name oid ∧ Element vb.value.value_type value val ∧
    Element SEQ_TYPE (oid ++ val) o ∧ oidInts name = some vb.ident ∧
    (vb.value = .NUL → value = []) ∧ ∀ ident, vb.value = .OBJ_ID ident → oidInts value = some ident

/-- A round that passes, with the three lengths that it reads. -/
structure Passed (old : ℕ → ℤ) (p : List (List UInt8)) (s : DecVars) (vb : VarBind) (s' : DecVars)
    (k n k₁ n₁ k₂ n₂ : ℕ) : Prop where
  seq : lengthAt p s.ofs = .ok (k, n)
  seq_type : readType p s.ofs s.type = SEQ_TYPE
  pos : 0 < n
  le : n ≤ s.vb_len
  name : lengthAt p (s.ofs + (1 + k)) = .ok (k₁, n₁)
  name_type : readType p (u16 (s.ofs + (1 + k))) SEQ_TYPE = OID_TYPE
  oid : (walk (decOid old n₁) p (u16 (s.ofs + (1 + k) + 1 + k₁))).1 = .ok vb.ident
  value : lengthAt p (s.ofs + (1 + k) + (1 + k₁ + n₁)) = .ok (k₂, n₂)
  dec : decVarValue old p (readType p (u16 (s.ofs + (1 + k) + (1 + k₁ + n₁))) OID_TYPE)
    (u16 (s.ofs + (1 + k) + (1 + k₁ + n₁) + 1 + k₂)) n₂ = .ok vb.value
  type : s'.type = readType p (u16 (s.ofs + (1 + k) + (1 + k₁ + n₁))) OID_TYPE
  ofs : s'.ofs = u16 (s.ofs + (1 + k) + (1 + k₁ + n₁) + (1 + k₂ + n₂))
  vb_len : s'.vb_len = u16sub (u16sub (u16sub s.vb_len (1 + k)) (1 + k₁ + n₁)) (1 + k₂ + n₂)

/-- A sum may wrap before or after. -/
theorem u16_add (a b : ℕ) : u16 (u16 a + b) = u16 (a + b) := Nat.mod_add_mod a _ b

/-- What a round that passes has read. -/
theorem decVarbind_ok {old : ℕ → ℤ} {p : List (List UInt8)} {s s' : DecVars} {vb : VarBind}
    (h : decVarbind old p s = .ok (vb, s')) :
    ∃ k n k₁ n₁ k₂ n₂, Passed old p s vb s' k n k₁ n₁ k₂ n₂ := by
  unfold decVarbind at h
  obtain ⟨⟨k, n⟩, hseq, h⟩ := bind_eq_ok.mp h
  dsimp only at h
  split at h
  · cases h
  next hfirst =>
  rw [not_or, not_or, not_not] at hfirst
  obtain ⟨hseqtype, hpos, hle⟩ := hfirst
  rw [hseqtype] at h
  obtain ⟨⟨k₁, n₁⟩, hname, h⟩ := bind_eq_ok.mp h
  dsimp only at h
  split at h
  · cases h
  next hoid =>
  rw [not_not] at hoid
  rw [hoid] at h
  obtain ⟨oid, hident, h⟩ := bind_eq_ok.mp h
  obtain ⟨⟨k₂, n₂⟩, hvalue, h⟩ := bind_eq_ok.mp h
  dsimp only at h
  obtain ⟨value, hdec, h⟩ := bind_eq_ok.mp h
  cases h
  refine ⟨k, n, k₁, n₁, k₂, n₂, hseq, hseqtype, Nat.pos_of_ne_zero hpos, Nat.not_lt.mp hle, ?_,
    hoid, ?_, ?_, ?_, ?_, ?_, rfl⟩
  · simpa only [lengthAt, u16_add, Nat.add_assoc] using hname
  · simpa only [u16_add, Nat.add_assoc] using hident
  · simpa only [lengthAt, u16_add, Nat.add_assoc] using hvalue
  · simpa only [OID_TYPE, u16_add, Nat.add_assoc] using hdec
  · simp only [OID_TYPE, u16_add, Nat.add_assoc]
  · simp only [u16_add, Nat.add_assoc]

/-! ## Elements in a chain -/

section Chains

variable {p : List (List UInt8)} {ofs k n len : ℕ} {type t b : UInt8} {old : ℕ → ℤ} {v : VarValue}

/-- The type is the octet that is there. -/
theorem readType_some (hgap : Gapless p) (hfits : p.flatten.length < 2^16)
    (hb : p.flatten[ofs]? = some b) : readType p ofs t = b := by
  obtain ⟨hlt, hb⟩ := List.getElem?_eq_some_iff.mp hb
  obtain ⟨x, hv, hrest, hwalk⟩ := walk_start hgap hfits hlt
  rw [List.drop_eq_getElem_cons hlt, hb] at hrest
  unfold readType
  rw [hwalk decType]
  unfold decType
  rw [take_spec hv hrest]

/-- The octet that is there is the type. -/
theorem getElem?_eq_readType (hgap : Gapless p) (hfits : p.flatten.length < 2^16)
    (hlt : ofs < p.flatten.length) (t : UInt8) : p.flatten[ofs]? = some (readType p ofs t) := by
  rw [readType_some hgap hfits (List.getElem?_eq_getElem hlt), List.getElem?_eq_getElem hlt]

/-- A length that is read is in the chain. -/
theorem lengthAt_ok (hgap : Gapless p) (hfits : p.flatten.length < 2^16)
    (hlt : ofs < p.flatten.length) (h : lengthAt p ofs = .ok (k, n)) :
    p.flatten[ofs + 1]? = some 0x80 ∨
      ∃ f l, p.flatten.drop (ofs + 1) = f ++ l ∧ f.length = k ∧ LengthField f n := by
  have hu16 : u16 (ofs + 1) = ofs + 1 := Nat.mod_eq_of_lt (by omega)
  rw [lengthAt, hu16] at h
  obtain ⟨x, hv, hrest, -, hdec⟩ := walk_ok hgap hfits h
  obtain ⟨l, hl⟩ | ⟨f, l, hl, hf⟩ := decLength_ok hv hdec
  · have hhead := congrArg List.head? (hrest.symm.trans hl)
    rw [List.head?_drop] at hhead
    exact .inl hhead
  · exact .inr ⟨f, l, hrest.symm.trans hl, hf⟩

/-- A length is a `u16_t`. -/
theorem decIndefinite_lt {fuel zeros length : ℕ} {x : Ptr}
    (h : (decIndefinite fuel zeros length x).1 = .ok n) : n < 2^16 := by
  induction fuel generalizing zeros length x with
  | zero => cases h
  | succ fuel ih =>
    unfold decIndefinite at h
    obtain ⟨u, x₁, -, h⟩ := bind_fst_ok h
    obtain ⟨b, x₂, -, h⟩ := bind_fst_ok h
    dsimp only at h
    generalize (if b = 0 then zeros + 1 else 0) = zeros at h
    split at h
    · cases h
      exact Nat.mod_lt _ (by decide)
    · exact ih h

/-- A length is a `u16_t`. -/
theorem lengthAt_lt (h : lengthAt p ofs = .ok (k, n)) : n < 2^16 := by
  have hoctet : ∀ b : UInt8, b.toNat < 2^16 := fun b => b.toNat_lt.trans (by decide)
  unfold lengthAt walk at h
  split at h
  · cases h
  dsimp only at h
  unfold decLength at h
  obtain ⟨b, x, -, h⟩ := bind_fst_ok h
  split at h
  · cases h
    exact hoctet b
  split at h
  · obtain ⟨length, x₁, hlength, h⟩ := bind_fst_ok h
    cases h
    exact decIndefinite_lt (congrArg Prod.fst hlength)
  split at h
  · obtain ⟨u, x₁, -, h⟩ := bind_fst_ok h
    obtain ⟨b₁, x₂, -, h⟩ := bind_fst_ok h
    cases h
    exact hoctet b₁
  split at h
  · obtain ⟨u, x₁, -, h⟩ := bind_fst_ok h
    obtain ⟨hi, x₂, -, h⟩ := bind_fst_ok h
    obtain ⟨u, x₃, -, h⟩ := bind_fst_ok h
    obtain ⟨lo, x₄, -, h⟩ := bind_fst_ok h
    cases h
    have hhi : hi.toNat <<< 8 < 2^16 := by
      have hlt := hi.toNat_lt
      rw [Nat.shiftLeft_eq]
      omega
    exact Nat.or_lt_two_pow hhi (hoctet lo)
  · cases h

/-- The length of an element is what is read for it. -/
theorem lengthAt_element {content o tail : List UInt8} (hgap : Gapless p)
    (hfits : p.flatten.length < 2^16)
    (h : lengthAt p ofs = .ok (k, n)) (ho : Element type content o)
    (hdrop : p.flatten.drop ofs = o ++ tail) :
    n = content.length ∧ o.length = 1 + k + n ∧ p.flatten[ofs]? = some type ∧
      p.flatten[ofs + 1]? ≠ some 0x80 ∧ p.flatten.drop (ofs + 1 + k) = content ++ tail := by
  obtain ⟨f, hf, rfl⟩ := ho
  have hhead := congrArg List.head? hdrop
  rw [List.head?_drop] at hhead
  have hhead : p.flatten[ofs]? = some type := hhead
  have hlt := (List.getElem?_eq_some_iff.mp hhead).1
  have hbehind : p.flatten.drop (ofs + 1) = f ++ (content ++ tail) := by
    rw [← List.drop_drop, hdrop, List.cons_append, List.drop_succ_cons, List.drop_zero,
      List.append_assoc]
  have hdef : p.flatten[ofs + 1]? ≠ some 0x80 := by
    obtain ⟨b, f', rfl⟩ := List.exists_cons_of_ne_nil (List.length_pos_iff.mp hf.length_pos)
    have hhead := congrArg List.head? hbehind
    rw [List.head?_drop] at hhead
    rw [hhead]
    intro hb
    rw [Option.some.inj hb] at hf
    exact hf.head_ne rfl
  obtain hindef | ⟨f', l, hl, rfl, hf'⟩ := lengthAt_ok hgap hfits hlt h
  · exact absurd hindef hdef
  obtain ⟨rfl, rfl, rfl⟩ := hf'.unique hf (hl.symm.trans hbehind)
  refine ⟨rfl, ?_, hhead, hdef, ?_⟩
  · rw [List.length_cons, List.length_append]
    omega
  · rw [← List.drop_drop, hbehind, List.drop_left]

/-- A value that is read at `ofs` is in the chain; only that of `NUL` is not looked at. -/
def ReadAt (old : ℕ → ℤ) (p : List (List UInt8)) (ofs len : ℕ) : VarValue → Prop
  | .NUL => True
  | .OBJ_ID ident => (walk (decOid old len) p ofs).1 = .ok ident
  | _ => len ≤ (p.flatten.drop ofs).length

/-- A value is of the type that was asked for. -/
theorem decVarValue_type (h : decVarValue old p type ofs len = .ok v) : v.value_type = type := by
  have hmap : ∀ {α : Type} {m : Except Stop α} {f : α → VarValue}, f <$> m = .ok v → ∃ a,
      v = f a := by
    intro α m f hm
    cases m with
    | error e => cases hm
    | ok a =>
      cases hm
      exact ⟨a, rfl⟩
  unfold decVarValue at h
  split at h
  · next ht =>
    obtain ⟨a, rfl⟩ := hmap h
    exact ht.symm
  split at h
  · next ht =>
    obtain ⟨a, rfl⟩ := hmap h
    exact ht.symm
  split at h
  · next ht =>
    obtain ⟨a, rfl⟩ := hmap h
    exact ht.symm
  split at h
  · next ht =>
    obtain ⟨a, rfl⟩ := hmap h
    exact ht.symm
  split at h
  · next ht =>
    obtain ⟨a, rfl⟩ := hmap h
    exact ht.symm
  split at h
  · next ht =>
    obtain ⟨a, rfl⟩ := hmap h
    exact ht.symm
  split at h
  · next ht =>
    cases h
    exact ht.symm
  split at h
  · next ht =>
    obtain ⟨a, rfl⟩ := hmap h
    exact ht.symm
  split at h
  · next ht =>
    split at h
    · obtain ⟨a, rfl⟩ := hmap h
      exact ht.symm
    · cases h
  · cases h

/-- A value that is read is in the chain. -/
theorem decVarValue_ok (hgap : Gapless p) (hfits : p.flatten.length < 2^16)
    (h : decVarValue old p type ofs len = .ok v) :
    v.value_type = type ∧ ReadAt old p ofs len v := by
  have hmap : ∀ {α : Type} {m : Except Stop α} {f : α → VarValue}, f <$> m = .ok v →
      ∃ a, m = .ok a ∧ v = f a := by
    intro α m f hm
    cases m with
    | error e => cases hm
    | ok a =>
      cases hm
      exact ⟨a, rfl, rfl⟩
  have hraw : ∀ {raw_len : ℕ} {raw : List UInt8}, decRaw p ofs len raw_len = .ok raw →
      len ≤ (p.flatten.drop ofs).length := by
    intro raw_len raw hr
    unfold decRaw at hr
    split at hr
    · next hpos =>
      obtain ⟨x, hv, hrest, -, hdec⟩ := walk_ok hgap hfits hr
      rw [← hrest]
      split at hdec
      · exact decRawOctets_ok hv hpos hdec
      · cases hdec
    · next hzero => exact (Nat.le_zero.mp (Nat.not_lt.mp hzero)) ▸ Nat.zero_le _
  have hu32t : ∀ {value : ℕ}, (walk (decU32t len) p ofs).1 = .ok value →
      len ≤ (p.flatten.drop ofs).length := by
    intro value hu
    obtain ⟨x, hv, hrest, -, hdec⟩ := walk_ok hgap hfits hu
    exact hrest ▸ decU32t_ok hv hdec
  have hs32t : ∀ {value : ℤ}, (walk (decS32t len) p ofs).1 = .ok value →
      len ≤ (p.flatten.drop ofs).length := by
    intro value hs
    obtain ⟨x, hv, hrest, -, hdec⟩ := walk_ok hgap hfits hs
    exact hrest ▸ decS32t_ok hv hdec
  unfold decVarValue at h
  split at h
  · next ht =>
    obtain ⟨a, ha, rfl⟩ := hmap h
    exact ⟨ht.symm, hs32t ha⟩
  split at h
  · next ht =>
    obtain ⟨a, ha, rfl⟩ := hmap h
    exact ⟨ht.symm, hu32t ha⟩
  split at h
  · next ht =>
    obtain ⟨a, ha, rfl⟩ := hmap h
    exact ⟨ht.symm, hu32t ha⟩
  split at h
  · next ht =>
    obtain ⟨a, ha, rfl⟩ := hmap h
    exact ⟨ht.symm, hu32t ha⟩
  split at h
  · next ht =>
    obtain ⟨a, ha, rfl⟩ := hmap h
    exact ⟨ht.symm, hraw ha⟩
  split at h
  · next ht =>
    obtain ⟨a, ha, rfl⟩ := hmap h
    exact ⟨ht.symm, hraw ha⟩
  split at h
  · next ht =>
    cases h
    exact ⟨ht.symm, trivial⟩
  split at h
  · next ht =>
    obtain ⟨a, ha, rfl⟩ := hmap h
    exact ⟨ht.symm, ha⟩
  split at h
  · next ht =>
    split at h
    · obtain ⟨a, ha, rfl⟩ := hmap h
      exact ⟨ht.symm, hraw ha⟩
    · cases h
  · cases h

/-- To read a value does not leave the payloads. -/
theorem decVarValue_inside (hgap : Gapless p) (hfits : p.flatten.length < 2^16) :
    decVarValue old p type ofs len ≠ .error .outOfBounds := by
  have hmap : ∀ {α : Type} {m : Except Stop α} {f : α → VarValue}, m ≠ .error .outOfBounds →
      f <$> m ≠ .error .outOfBounds := by
    intro α m f hm
    cases m with
    | error e => exact fun he => hm (congrArg Except.error (Except.error.inj he))
    | ok a => exact nofun
  have hraw : ∀ raw_len, decRaw p ofs len raw_len ≠ .error .outOfBounds := by
    intro raw_len
    unfold decRaw
    split
    · exact walk_inside (inside_ite (inside_decRawOctets _) inside_stop) hgap hfits
    · exact nofun
  have hu32t : (walk (decU32t len) p ofs).1 ≠ .error .outOfBounds :=
    walk_inside (inside_decU32t len) hgap hfits
  have hs32t : (walk (decS32t len) p ofs).1 ≠ .error .outOfBounds :=
    walk_inside (inside_decS32t len) hgap hfits
  unfold decVarValue
  split
  · exact hmap hs32t
  split
  · exact hmap hu32t
  split
  · exact hmap hu32t
  split
  · exact hmap hu32t
  split
  · exact hmap (hraw _)
  split
  · exact hmap (hraw _)
  split
  · exact nofun
  split
  · exact hmap (walk_inside (inside_decOid old len) hgap hfits)
  split
  · split
    · exact hmap (hraw _)
    · exact nofun
  · exact nofun

end Chains

/-! ## Rounds -/

/-- The lengths that a round reads agree, and lie inside of what is left of the list; no length is
an indefinite one, and the identifiers fit. -/
structure Lengths (octets : List UInt8) (s : DecVars) (k n k₁ n₁ k₂ n₂ : ℕ) : Prop where
  inside : s.ofs + (1 + k) + (1 + k₁ + n₁) < octets.length
  sum : n = (1 + k₁ + n₁) + (1 + k₂ + n₂)
  fits : 1 + k + n ≤ s.vb_len
  seq : octets[s.ofs + 1]? ≠ some 0x80
  name : octets[s.ofs + (1 + k) + 1]? ≠ some 0x80
  value : octets[s.ofs + (1 + k) + (1 + k₁ + n₁) + 1]? ≠ some 0x80
  nul : octets[s.ofs + (1 + k) + (1 + k₁ + n₁)]? = some NUL_TYPE → n₂ = 0
  ident : OidFits ((octets.drop (s.ofs + (1 + k) + 1 + k₁)).take n₁)
  oid_value : octets[s.ofs + (1 + k) + (1 + k₁ + n₁)]? = some OID_TYPE →
    OidFits ((octets.drop (s.ofs + (1 + k) + (1 + k₁ + n₁) + 1 + k₂)).take n₂)

/-- The lengths of a round agree. -/
def RoundFits (p : List (List UInt8)) (s : DecVars) : Prop :=
  ∀ k n k₁ n₁ k₂ n₂, lengthAt p s.ofs = .ok (k, n) → lengthAt p (s.ofs + (1 + k)) = .ok (k₁, n₁) →
    lengthAt p (s.ofs + (1 + k) + (1 + k₁ + n₁)) = .ok (k₂, n₂) →
    Lengths p.flatten s k n k₁ n₁ k₂ n₂

section Rounds

variable {p : List (List UInt8)} {old : ℕ → ℤ} {s s' : DecVars} {vb : VarBind} {k n k₁ n₁ k₂ n₂ : ℕ}

/-- A value of the type of `NUL`. -/
theorem value_type_eq_NUL {v : VarValue} (h : v.value_type = NUL_TYPE) : v = .NUL := by
  cases v with
  | NUL => rfl
  | _ => exact absurd h (by simp only [VarValue.value_type]; decide)

/-- A value of the type of an identifier. -/
theorem value_type_eq_OID {v : VarValue} (h : v.value_type = OID_TYPE) :
    ∃ ident, v = .OBJ_ID ident := by
  cases v with
  | OBJ_ID ident => exact ⟨ident, rfl⟩
  | _ => exact absurd h (by simp only [VarValue.value_type]; decide)

/-- An element that is made of its parts. -/
theorem element_drop {octets f content l : List UInt8} {ofs : ℕ} {type : UInt8}
    (hf : LengthField f content.length) (htype : octets[ofs]? = some type)
    (hdrop : octets.drop (ofs + 1) = f ++ l) (hl : l.take content.length = content) :
    Element type content (type :: (f ++ content)) ∧
      octets.drop ofs = type :: (f ++ content) ++ octets.drop
      (ofs + (1 + f.length + content.length)) := by
  obtain ⟨hlt, htype⟩ := List.getElem?_eq_some_iff.mp htype
  refine ⟨⟨f, hf, rfl⟩, ?_⟩
  have hrest : octets.drop (ofs + (1 + f.length + content.length)) = l.drop content.length := by
    rw [← Nat.add_assoc, ← Nat.add_assoc, ← List.drop_drop, ← List.drop_drop, hdrop, List.drop_left]
  rw [hrest, List.drop_eq_getElem_cons hlt, htype, hdrop, List.cons_append, List.append_assoc]
  nth_rewrite 1 [← List.take_append_drop content.length l]
  rw [hl]

/-- An identifier that is read is the one that is encoded exactly if its content, which is in the
chain then, fits. -/
theorem oidFits_iff {ofs len : ℕ} {ident : List ℤ} (hgap : Gapless p)
    (hfits : p.flatten.length < 2^16)
    (h : (walk (decOid old len) p ofs).1 = .ok ident) : OidFits ((p.flatten.drop ofs).take len) ↔
      len ≤ (p.flatten.drop ofs).length ∧ oidInts ((p.flatten.drop ofs).take len) = some ident := by
  obtain ⟨x, hv, hrest, -, hdec⟩ := walk_ok hgap hfits h
  rw [← hrest]
  exact decOid_encoded_iff hv hdec

/-- If the lengths agree, then a round that passes has read a binding. -/
theorem Passed.encodes (h : Passed old p s vb s' k n k₁ n₁ k₂ n₂) (hgap : Gapless p)
    (hfits : p.flatten.length < 2^16) (hl : Lengths p.flatten s k n k₁ n₁ k₂ n₂)
    (hvb : s.vb_len < 2^16) :
    ∃ o, Encodes o vb ∧ p.flatten.drop s.ofs = o ++ p.flatten.drop s'.ofs ∧
    s'.ofs = s.ofs + o.length ∧
      s'.ofs ≤ p.flatten.length ∧ 0 < o.length ∧ o.length + s'.vb_len = s.vb_len := by
  have hinside := hl.inside
  have hsum := hl.sum
  have hroom := hl.fits
  have hu16 : ∀ i ≤ p.flatten.length, u16 i = i := fun i hi => Nat.mod_eq_of_lt (by omega)
  -- The three types and lengths.
  obtain hdef | ⟨f, l, hf, rfl, hfield⟩ := lengthAt_ok hgap hfits (by omega) h.seq
  · exact absurd hdef hl.seq
  obtain hdef | ⟨f₁, l₁, hf₁, rfl, hfield₁⟩ := lengthAt_ok hgap hfits (by omega) h.name
  · exact absurd hdef hl.name
  obtain hdef | ⟨f₂, l₂, hf₂, rfl, hfield₂⟩ := lengthAt_ok hgap hfits hinside h.value
  · exact absurd hdef hl.value
  have htype := getElem?_eq_readType hgap hfits (by omega : s.ofs < p.flatten.length) s.type
  rw [h.seq_type] at htype
  have htype₁ := getElem?_eq_readType hgap hfits
    (by omega : s.ofs + (1 + f.length) < p.flatten.length) SEQ_TYPE
  have hname_type := h.name_type
  rw [hu16 _ (by omega)] at hname_type
  rw [hname_type] at htype₁
  have htype₂ := getElem?_eq_readType hgap hfits hinside OID_TYPE
  have hbehind : ∀ {ofs f l}, p.flatten.drop (ofs + 1) = f ++ l → ofs + 1 ≤ p.flatten.length →
      ofs + 1 + f.length ≤ p.flatten.length ∧ p.flatten.drop (ofs + 1 + f.length) = l := by
    intro ofs f l hl hle
    have hlength := congrArg List.length hl
    rw [List.length_drop, List.length_append] at hlength
    exact ⟨by omega, by rw [← List.drop_drop, hl, List.drop_left]⟩
  -- The name, and the value.
  obtain ⟨hle₁, hl₁⟩ := hbehind hf₁ (by omega)
  obtain ⟨hle₂, hl₂⟩ := hbehind hf₂ hinside
  have hoid := h.oid
  rw [hu16 _ hle₁] at hoid
  have hident := (oidFits_iff hgap hfits hoid).mp hl.ident
  rw [hl₁] at hident
  have hdec := h.dec
  rw [hu16 _ hinside.le, hu16 _ hle₂] at hdec
  obtain ⟨hvaltype, hval⟩ := decVarValue_ok hgap hfits hdec
  rw [← hvaltype] at htype₂
  have hvalue : n₂ ≤ l₂.length ∧ (vb.value = .NUL → l₂.take n₂ = []) ∧
      ∀ ident, vb.value = .OBJ_ID ident → oidInts (l₂.take n₂) = some ident := by
    rw [← hl₂]
    cases hv : vb.value with
    | NUL =>
      rw [hv] at htype₂
      obtain rfl : n₂ = 0 := hl.nul htype₂
      exact ⟨Nat.zero_le _, fun _ => rfl, nofun⟩
    | OBJ_ID ident =>
      rw [hv] at htype₂ hval
      obtain ⟨hle, hident⟩ := (oidFits_iff hgap hfits hval).mp (hl.oid_value htype₂)
      refine ⟨hle, nofun, fun ident' heq => ?_⟩
      cases heq
      exact hident
    | _ =>
      rw [hv] at hval
      exact ⟨hval, nofun, nofun⟩
  have hlen₁ := List.length_take_of_le hident.1
  have hlen₂ := List.length_take_of_le hvalue.1
  rw [← hlen₁] at hfield₁
  rw [← hlen₂] at hfield₂
  obtain ⟨ho₁, hdrop₁⟩ := element_drop hfield₁ htype₁ hf₁ (by rw [hlen₁])
  obtain ⟨ho₂, hdrop₂⟩ := element_drop hfield₂ htype₂ hf₂ (by rw [hlen₂])
  rw [hlen₁] at hdrop₁
  rw [hlen₂] at hdrop₂
  -- The binding.
  generalize ho₁' : OID_TYPE :: (f₁ ++ l₁.take n₁) = o₁ at ho₁ hdrop₁
  generalize ho₂' : vb.value.value_type :: (f₂ ++ l₂.take n₂) = o₂ at ho₂ hdrop₂
  have holen₁ : o₁.length = 1 + f₁.length + n₁ := by
    rw [← ho₁', List.length_cons, List.length_append, hlen₁]
    omega
  have holen₂ : o₂.length = 1 + f₂.length + n₂ := by
    rw [← ho₂', List.length_cons, List.length_append, hlen₂]
    omega
  have hn : n = (o₁ ++ o₂).length := by rw [List.length_append, holen₁, holen₂, hsum]
  have hparts : p.flatten.drop (s.ofs + 1 + f.length) =
      o₁ ++ o₂ ++ p.flatten.drop (s.ofs + (1 + f.length) + (1 + f₁.length + n₁) +
      (1 + f₂.length + n₂)) := by
    rw [Nat.add_assoc s.ofs, hdrop₁, hdrop₂, List.append_assoc]
  obtain ⟨-, hl₀⟩ := hbehind hf (by omega)
  rw [hn] at hfield
  obtain ⟨ho, hdrop⟩ := element_drop hfield htype hf (by rw [← hl₀, hparts, List.take_left])
  have hend : s.ofs + (1 + f.length) + (1 + f₁.length + n₁) + (1 + f₂.length + n₂) ≤
      p.flatten.length := by
    have hlength := congrArg List.length hl₂
    rw [List.length_drop] at hlength
    have hle := hvalue.1
    omega
  have hofs : s'.ofs = s.ofs + (1 + f.length + n) := by
    rw [h.ofs, hu16 _ hend]
    omega
  rw [← hn, ← hofs] at hdrop
  refine ⟨_, ⟨_, _, _, _, ho₁, ho₂, ho, hident.2, hvalue.2⟩, hdrop, ?_, ?_, Nat.succ_pos _, ?_⟩
  · rw [List.length_cons, List.length_append, ← hn, hofs]
    omega
  · rw [hofs]
    omega
  · rw [List.length_cons, List.length_append, ← hn, h.vb_len]
    unfold u16sub
    omega

/-- If a round that passes has read a binding, then the lengths agree. -/
theorem Passed.lengths {o tail : List UInt8} (h : Passed old p s vb s' k n k₁ n₁ k₂ n₂)
    (hgap : Gapless p)
    (hfits : p.flatten.length < 2^16) (ho : Encodes o vb) (hdrop : p.flatten.drop s.ofs = o ++ tail)
    (hle : o.length ≤ s.vb_len) : Lengths p.flatten s k n k₁ n₁ k₂ n₂ := by
  obtain ⟨name, value, oid, val, hoid, hval, hseq, hident, hnul, hoidvalue⟩ := ho
  obtain ⟨hn, holen, -, hdef, hbehind⟩ := lengthAt_element hgap hfits h.seq hseq hdrop
  have hbehind : p.flatten.drop (s.ofs + (1 + k)) = oid ++ (val ++ tail) := by
    rw [← Nat.add_assoc, hbehind, List.append_assoc]
  obtain ⟨hn₁, hoidlen, hoidtype, hdef₁, hname⟩ := lengthAt_element hgap hfits h.name hoid hbehind
  have hbehind₁ : p.flatten.drop (s.ofs + (1 + k) + (1 + k₁ + n₁)) = val ++ tail := by
    rw [← hoidlen, ← List.drop_drop, hbehind, List.drop_left]
  obtain ⟨hn₂, hvallen, hvaltype, hdef₂, hvalue⟩ :=
    lengthAt_element hgap hfits h.value hval hbehind₁
  have hlt := (List.getElem?_eq_some_iff.mp hvaltype).1
  have hu16 : ∀ i ≤ p.flatten.length, u16 i = i := fun i hi => Nat.mod_eq_of_lt (by omega)
  have hlen : n = (1 + k₁ + n₁) + (1 + k₂ + n₂) := by
    rw [hn, List.length_append, hoidlen, hvallen]
  -- An identifier that is the one that is encoded has a content that fits.
  have hoidfits : ∀ {ofs len content rest ident}, p.flatten.drop ofs = content ++ rest →
    len = content.length →
      ofs ≤ p.flatten.length → (walk (decOid old len) p (u16 ofs)).1 = .ok ident →
      oidInts content = some ident → OidFits ((p.flatten.drop ofs).take len) := by
    intro ofs len content rest ident hcontent hlen hofs hread hsame
    rw [hu16 ofs hofs] at hread
    have htake : (p.flatten.drop ofs).take len = content := by rw [hcontent, hlen, List.take_left]
    rw [oidFits_iff hgap hfits hread, htake]
    refine ⟨?_, hsame⟩
    rw [hcontent, List.length_append, hlen]
    exact Nat.le_add_right _ _
  have hin : s.ofs + (1 + k) + (1 + k₁ + n₁) + val.length ≤ p.flatten.length := by
    have hlength := congrArg List.length hbehind₁
    rw [List.length_drop, List.length_append] at hlength
    omega
  refine ⟨hlt, hlen, by omega, hdef, hdef₁, hdef₂, fun hnultype => ?_, ?_, fun hoidtype' => ?_⟩
  · rw [hvaltype] at hnultype
    rw [hn₂, hnul (value_type_eq_NUL (Option.some.inj hnultype))]
    rfl
  · exact hoidfits hname hn₁ (by omega) h.oid hident
  · rw [hvaltype] at hoidtype'
    obtain ⟨ident, hvalue_eq⟩ := value_type_eq_OID (Option.some.inj hoidtype')
    have hdec := h.dec
    rw [hvalue_eq] at hdec
    have hread := (decVarValue_ok hgap hfits hdec).2
    exact hoidfits hvalue hn₂ (by omega) hread (hoidvalue ident hvalue_eq)

end Rounds

/-! ## Rounds that pass -/

/-- Rounds that pass, with the bindings that they read. -/
inductive Rounds (p : List (List UInt8)) : DecVars → List VarBind → DecVars → Prop where
  | nil (v : DecVars) : Rounds p v [] v
  | cons {v v' v'' : DecVars} {vb : VarBind} {vbs : List VarBind} {old : ℕ → ℤ} : 0 < v.vb_len →
    decVarbind old p v = .ok (vb, v') → Rounds p v' vbs v'' → Rounds p v (vb :: vbs) v''

/-- The lengths agree in each round that passes. -/
def AllFit (p : List (List UInt8)) (v : DecVars) : Prop :=
  ∀ vbs v' old vb v'', Rounds p v vbs v' → 0 < v'.vb_len → decVarbind old p v' = .ok (vb, v'') →
    RoundFits p v'

section Runs

variable {p : List (List UInt8)} {old : ℕ → ℤ} {v v' : DecVars} {vb : VarBind} {vbs : List VarBind}

/-- The bindings behind the first one fit too. -/
theorem AllFit.next (h : AllFit p v) (hpos : 0 < v.vb_len)
    (hdec : decVarbind old p v = .ok (vb, v')) : AllFit p v' :=
  fun vbs _ _ _ _ hr => h (vb :: vbs) _ _ _ _ (.cons hpos hdec hr)

/-- Where a round ends does not depend on what was in the arrays before. -/
theorem decVarbind_next {old' : ℕ → ℤ} {vb' : VarBind} {w : DecVars}
    (h : decVarbind old p v = .ok (vb, v')) (h' : decVarbind old' p v = .ok (vb', w)) : v' = w := by
  obtain ⟨k, n, k₁, n₁, k₂, n₂, hp⟩ := decVarbind_ok h
  obtain ⟨_, _, _, _, _, _, hp'⟩ := decVarbind_ok h'
  cases hp'.seq.symm.trans hp.seq
  cases hp'.name.symm.trans hp.name
  cases hp'.value.symm.trans hp.value
  cases v'
  cases w
  rw [DecVars.mk.injEq]
  exact ⟨hp.type.trans hp'.type.symm, hp.ofs.trans hp'.ofs.symm, hp.vb_len.trans hp'.vb_len.symm⟩

/-- A round that passes has read a binding, if the lengths agree. -/
theorem RoundFits.encodes (hfit : RoundFits p v) (hgap : Gapless p)
    (hfits : p.flatten.length < 2^16)
    (hvb : v.vb_len < 2^16) (hdec : decVarbind old p v = .ok (vb, v')) :
    ∃ o, Encodes o vb ∧ p.flatten.drop v.ofs = o ++ p.flatten.drop v'.ofs ∧
    v'.ofs = v.ofs + o.length ∧
      v'.ofs ≤ p.flatten.length ∧ 0 < o.length ∧ o.length + v'.vb_len = v.vb_len := by
  obtain ⟨k, n, k₁, n₁, k₂, n₂, hpassed⟩ := decVarbind_ok hdec
  exact hpassed.encodes hgap hfits (hfit _ _ _ _ _ _ hpassed.seq hpassed.name hpassed.value) hvb

/-- Rounds that pass have read bindings, if the lengths agree. -/
theorem Rounds.encoded (h : Rounds p v vbs v') (hgap : Gapless p) (hfits : p.flatten.length < 2^16)
    (hvb : v.vb_len < 2^16) (hfit : AllFit p v) :
    ∃ os, List.Forall₂ Encodes os vbs ∧ p.flatten.drop v.ofs = os.flatten ++ p.flatten.drop v'.ofs ∧
      v'.ofs = v.ofs + os.flatten.length ∧ os.flatten.length + v'.vb_len = v.vb_len := by
  induction h with
  | nil v => exact ⟨[], .nil, rfl, rfl, Nat.zero_add _⟩
  | cons hpos hdec _ ih =>
    obtain ⟨o, ho, hdrop, hofs, -, -, hlen⟩ :=
      (hfit [] _ _ _ _ (.nil _) hpos hdec).encodes hgap hfits hvb hdec
    obtain ⟨os, hos, hdrops, hofss, hlens⟩ := ih (by omega) (hfit.next hpos hdec)
    refine ⟨o :: os, .cons ho hos, ?_, ?_, ?_⟩
    · rw [hdrop, hdrops, List.flatten_cons, List.append_assoc]
    · rw [hofss, hofs, List.flatten_cons, List.length_append, Nat.add_assoc]
    · rw [List.flatten_cons, List.length_append]
      omega

/-- Rounds to the end that have read bindings are rounds whose lengths agree. -/
theorem Rounds.allFit {os : List (List UInt8)} {tail : List UInt8} (h : Rounds p v vbs v')
    (hend : v'.vb_len = 0) (hgap : Gapless p) (hfits : p.flatten.length < 2^16)
    (hvb : v.vb_len < 2^16)
    (hos : List.Forall₂ Encodes os vbs) (hdrop : p.flatten.drop v.ofs = os.flatten ++ tail)
    (hlen : v.vb_len = os.flatten.length) : AllFit p v := by
  induction h generalizing os with
  | nil v =>
    intro vbs u old vb u' hr hpos
    cases hr with
    | nil => exact absurd hpos (Nat.not_lt.mpr hend.le)
    | cons hpos => exact absurd hpos (Nat.not_lt.mpr hend.le)
  | cons hpos hdec _ ih =>
    obtain ⟨o, os, ho, hbehind, rfl⟩ := List.forall₂_cons_right_iff.mp hos
    rw [List.flatten_cons, List.append_assoc] at hdrop
    rw [List.flatten_cons, List.length_append] at hlen
    obtain ⟨k, n, k₁, n₁, k₂, n₂, hpassed⟩ := decVarbind_ok hdec
    have hl := hpassed.lengths hgap hfits ho hdrop (by omega)
    obtain ⟨o', ho', hdrop', hofs, -, -, hlen'⟩ := hpassed.encodes hgap hfits hl hvb
    -- Both are the binding that the octets begin with.
    obtain ⟨_, _, _, _, -, -, hseq, -⟩ := ho
    obtain ⟨_, _, _, _, -, -, hseq', -⟩ := ho'
    have hbegin := hdrop.symm.trans hdrop'
    obtain ⟨-, -, hrest⟩ := hseq.unique hseq' hbegin
    have hsame : o.length = o'.length := by
      rw [hrest] at hbegin
      rw [List.append_cancel_right hbegin]
    have hnext := ih hend (by omega) hbehind hrest.symm (by omega)
    intro vbs u old vb u' hr hpos' hdec'
    cases hr with
    | nil =>
      intro k' n' k₁' n₁' k₂' n₂' hseq' hname' hvalue'
      cases hseq'.symm.trans hpassed.seq
      cases hname'.symm.trans hpassed.name
      cases hvalue'.symm.trans hpassed.value
      exact hl
    | cons _ hdec₁ hr =>
      rw [decVarbind_next hdec₁ hdec] at hr
      exact hnext _ _ _ _ _ hr hpos' hdec'

end Runs

end Lwip.Snmp
