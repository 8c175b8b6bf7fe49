import Lwip.Snmp.Fields

/-!
# The octets of a response

The message that the two passes of `msg_out.c` build, as one list of octets: every field is its
type, the length of its content and its content. The lengths of the first pass are those of the
contents, unless an identifier has a negative sub-identifier. Such a sub-identifier has five octets,
but is counted as one (`oidOctets_count`).
-/

namespace Lwip.Snmp

/-- A type, the length of the content, and the content. -/
def tlv (type : UInt8) (content : List UInt8) :
    List UInt8 := type :: (lengthOctets content.length ++ content)

/-- The length of an element. -/
theorem tlv_length (type : UInt8) (content : List UInt8) :
    (tlv type content).length = 1 + encLengthCnt content.length + content.length := by
  unfold tlv
  rw [List.length_cons, List.length_append, lengthOctets_length]
  omega

/-- An element is its head and its fields. -/
theorem tlv_emits (type : UInt8) {fs : List Field} {content : List UInt8} {len lenlen : ℕ}
    (h : Emits fs content)
    (hlen : len = content.length) (hlenlen : lenlen = encLengthCnt len) :
    Emits (headFields type len lenlen ++ fs) (tlv type content) := by
  subst hlen hlenlen
  have hlength : Emits (⟨encLength content.length, encLengthCnt content.length⟩ :: fs)
      (lengthOctets content.length ++ content) :=
    Emits.cons (writes_length _) (lengthOctets_length _).symm h
  show Emits (⟨encType type, 1⟩ :: _) ([type] ++ _)
  exact Emits.cons (writes_type type) rfl hlength

/-! ## Identifiers -/

/-- The identifiers that `snmp_asn1_dec_oid` gives. -/
def LegalOid : List ℤ → Prop
  | [] => True
  | a :: b :: ident =>
    (0 ≤ a ∧ a ≤ 1 ∧ 0 ≤ b ∧ b < 40 ∨ a = 2 ∧ 0 ≤ b ∧ b ≤ 175) ∧
      ident.length + 2 ≤ LWIP_SNMP_OBJ_ID_LEN ∧ ∀ id ∈ ident, -2^31 ≤ id ∧ id < 2^31
  | _ => False

/-- No sub-identifier is negative. -/
def NonnegOid (ident : List ℤ) : Prop := ∀ id ∈ ident, 0 ≤ id

/-- A negative sub-identifier has five octets. -/
theorem subIdOctets_neg {id : ℤ} (h : id < 0) (hle : -2^31 ≤ id) : (subIdOctets id).length = 5 := by
  have hoct := octet_toNat (id / 2^28)
  have hcode : octet (id / 2^28) ≠ 0 := by
    rw [ne_eq, ← UInt8.toNat_inj, UInt8.toNat_zero]
    omega
  unfold subIdOctets subIdCodes
  dsimp only
  rw [if_pos (.inl hcode), List.length_append, List.length_cons, subIdCodes_true_length]
  rfl

/-- A negative sub-identifier is counted as one octet. -/
theorem subIdCnt_neg {id : ℤ} (h : id < 0) : subIdCnt id = 1 := by
  unfold subIdCnt encOidGroups
  rw [if_neg (by omega)]

/-- A sub-identifier has as many octets as are counted, or more. -/
theorem subIdCnt_le {id : ℤ} (h : -2^31 ≤ id) (hlt : id < 2^31) :
    subIdCnt id ≤ (subIdOctets id).length ∧ ((subIdOctets id).length = subIdCnt id ↔ 0 ≤ id) := by
  by_cases hneg : id < 0
  · rw [subIdOctets_neg hneg h, subIdCnt_neg hneg]
    omega
  · have hlen := subIdOctets_length (Int.not_lt.mp hneg) hlt
    omega

/-- The count is too small exactly if a sub-identifier is negative. -/
theorem flatMap_subIdOctets_count {ident : List ℤ} (h : ∀ id ∈ ident, -2^31 ≤ id ∧ id < 2^31) :
    (ident.map subIdCnt).sum ≤ (ident.flatMap subIdOctets).length ∧
      ((ident.flatMap subIdOctets).length = (ident.map subIdCnt).sum ↔ NonnegOid ident) := by
  induction ident with
  | nil => exact ⟨Nat.le_refl 0, iff_of_true rfl fun id hid => absurd hid List.not_mem_nil⟩
  | cons id ident ih =>
    obtain ⟨hle, hiff⟩ := ih fun i hi => h i (List.mem_cons_of_mem id hi)
    obtain ⟨h0, hlt⟩ := h id List.mem_cons_self
    obtain ⟨hle', hiff'⟩ := subIdCnt_le h0 hlt
    have hcons : NonnegOid (id :: ident) ↔ 0 ≤ id ∧ NonnegOid ident := List.forall_mem_cons
    rw [List.flatMap_cons, List.length_append, List.map_cons, List.sum_cons, hcons, ← hiff, ← hiff']
    omega

/-- There are not more octets than groups. -/
theorem subIdCodes_length_le (id : ℤ) (k : ℕ) (tail : Bool) :
    (subIdCodes id k tail).length ≤ k := by
  induction k generalizing tail with
  | zero => exact Nat.le_refl 0
  | succ k ih =>
    unfold subIdCodes
    dsimp only
    split
    · exact Nat.succ_le_succ (ih true)
    · exact Nat.le_succ_of_le (ih tail)

/-- An identifier has less than `2^16` octets. -/
theorem oidOctets_length_lt {ident : List ℤ} (h : LegalOid ident) :
    (oidOctets ident).length < 2^16 := by
  match ident with
  | [] => exact Nat.two_pow_pos 16
  | [_] => exact h.elim
  | a :: b :: ident =>
    obtain ⟨-, hlen, -⟩ := h
    have hlen : ident.length + 2 ≤ 32 := hlen
    have hsum : (ident.map fun id => (subIdOctets id).length).sum ≤
      (ident.map fun id => (subIdOctets id).length).length * 5 := by
      apply List.sum_le_card_nsmul
      intro n hn
      obtain ⟨id, -, rfl⟩ := List.mem_map.mp hn
      rw [subIdOctets, List.length_append, List.length_singleton]
      exact Nat.succ_le_succ (subIdCodes_length_le id 4 false)
    rw [List.length_map] at hsum
    show (prefixOctet a b :: ident.flatMap subIdOctets).length < 2^16
    rw [List.length_cons, List.length_flatMap]
    omega

/-- The octets of an identifier are as many as are counted just if no sub-identifier is negative. -/
theorem oidOctets_count {ident : List ℤ} (h : LegalOid ident) :
    (oidOctets ident).length = encOidCnt ident ↔ NonnegOid ident := by
  match ident with
  | [] => exact iff_of_true rfl fun id hid => absurd hid List.not_mem_nil
  | [_] => exact h.elim
  | a :: b :: ident =>
    obtain ⟨hpair, hlen, hids⟩ := h
    have hlen : ident.length + 2 ≤ 32 := hlen
    obtain ⟨-, hiff⟩ := flatMap_subIdOctets_count hids
    have hcons : NonnegOid (a :: b :: ident) ↔ NonnegOid ident := by
      unfold NonnegOid
      rw [List.forall_mem_cons, List.forall_mem_cons]
      exact ⟨fun hall => hall.2.2, fun hall => ⟨by omega, by omega, hall⟩⟩
    have hu8 : u8 (1 + (ident.map subIdCnt).sum) = 1 + (ident.map subIdCnt).sum := by
      have hsum := subIdCnt_sum_le ident
      exact Nat.mod_eq_of_lt (by omega)
    show (prefixOctet a b :: ident.flatMap subIdOctets).length =
      u8 (1 + (ident.map subIdCnt).sum) ↔ _
    rw [hu8, hcons, ← hiff, List.length_cons]
    omega

/-! ## Bindings -/

/-- The values that `snmp_pdu_dec_varbindlist` gives. -/
def VarValue.Legal : VarValue → Prop
  | INTEG value => -2^31 ≤ value ∧ value < 2^31
  | COUNTER value | GAUGE value | TIMETICKS value => value < 2^32
  | OC_STR value | OPAQUE value => value.length ≤ 255
  | IPADDR value => value.length = 4
  | NUL => True
  | OBJ_ID value => LegalOid value

/-- The bindings that `snmp_pdu_dec_varbindlist` gives. -/
def VarBind.Legal (vb : VarBind) : Prop := LegalOid vb.ident ∧ vb.value.Legal

/-- Neither the name nor an identifier as the value has a negative sub-identifier. -/
def VarBind.Nonneg (vb : VarBind) : Prop :=
  NonnegOid vb.ident ∧ ∀ ident, vb.value = .OBJ_ID ident → NonnegOid ident

/-- The content of a value. -/
def VarValue.octets : VarValue → List UInt8
  | INTEG value => valueOctets value (encS32tCnt value)
  | COUNTER value | GAUGE value | TIMETICKS value => u32tOctets (encU32tCnt value) value
  | OC_STR value | IPADDR value | OPAQUE value => value
  | NUL => []
  | OBJ_ID value => oidOctets value

/-- The octets inside a binding. -/
def VarBind.inner (vb : VarBind) : List UInt8 :=
  tlv (SNMP_ASN1_UNIV ||| SNMP_ASN1_PRIMIT ||| SNMP_ASN1_OBJ_ID) (oidOctets vb.ident) ++
    tlv vb.value.value_type vb.value.octets

/-- The octets of a binding. -/
def VarBind.octets (vb : VarBind) : List UInt8 :=
  tlv (SNMP_ASN1_UNIV ||| SNMP_ASN1_CONSTR ||| SNMP_ASN1_SEQ) vb.inner

/-- An identifier does not have a single element. -/
theorem LegalOid.length_ne_one {ident : List ℤ} (h : LegalOid ident) : ident.length ≠ 1 := by
  match ident with
  | [] => exact Nat.zero_ne_one
  | [_] => exact h.elim
  | _ :: _ :: _ => simp

/-- The count of an identifier is a `u8_t`. -/
theorem encOidCnt_lt (ident : List ℤ) : encOidCnt ident < 2^8 := by
  unfold encOidCnt
  split <;> exact Nat.mod_lt _ (by decide)

/-- The length of a value is a `u8_t`. -/
theorem VarBind.Legal.vlen_lt {vb : VarBind} (h : vb.Legal) : vb.lengths.vlen < 2^8 := by
  obtain ⟨ident, value⟩ := vb
  obtain ⟨-, hvalue⟩ := h
  show value.vlen < 2^8
  cases value with
  | INTEG v =>
    obtain ⟨n, hn, hlt, -⟩ := encS32tCnt_spec hvalue.1 hvalue.2
    show encS32tCnt v < 2^8
    omega
  | COUNTER v | GAUGE v | TIMETICKS v =>
    obtain ⟨n, hn, hlt, -⟩ := encU32tCnt_spec hvalue
    show encU32tCnt v < 2^8
    omega
  | OC_STR bs | OPAQUE bs => exact Nat.lt_succ_of_le hvalue
  | IPADDR bs =>
    have hlen : bs.length = 4 := hvalue
    show bs.length < 2^8
    omega
  | NUL => exact Nat.two_pow_pos 8
  | OBJ_ID ids => exact encOidCnt_lt ids

section VarBind

variable {vb : VarBind} (h : vb.Legal) (hnonneg : vb.Nonneg)

include h hnonneg

/-- The count of an identifier is right. -/
theorem VarBind.olen_eq : vb.lengths.olen = (oidOctets vb.ident).length :=
  ((oidOctets_count h.1).mpr hnonneg.1).symm

/-- The value of a binding is written with as many octets as are counted. -/
theorem VarBind.value_emits : vb.lengths.vlen = vb.value.octets.length ∧
    Emits [vb.value.field vb.lengths.vlen] vb.value.octets := by
  obtain ⟨ident, value⟩ := vb
  obtain ⟨-, hvalue⟩ := h
  obtain ⟨-, hident⟩ := hnonneg
  show value.vlen = value.octets.length ∧ Emits [value.field value.vlen] value.octets
  have hemits : ∀ {m : Walk Unit} {bs : List UInt8} {n : ℕ}, n = bs.length → Writes m bs →
      n = bs.length ∧ Emits [⟨m, n⟩] bs := by
    rintro m bs n rfl hw
    exact ⟨rfl, Emits.singleton hw⟩
  cases value with
  | INTEG v => exact hemits (encS32tOctets_length v).symm (writes_s32t _ v)
  | COUNTER v | GAUGE v | TIMETICKS v => exact hemits (u32tOctets_length v).symm (writes_u32t _ v)
  | OC_STR bs | OPAQUE bs | IPADDR bs => exact hemits rfl (writes_raw bs)
  | NUL => exact hemits rfl (writes_nil fun _ => rfl)
  | OBJ_ID ids =>
    have hcount := (oidOctets_count hvalue).mpr (hident ids rfl)
    exact hemits hcount.symm (writes_oid (LegalOid.length_ne_one hvalue))

/-- The fields of a binding are its content. -/
theorem VarBind.inner_emits : Emits vb.content vb.inner := by
  have holen := VarBind.olen_eq h hnonneg
  obtain ⟨hvlen, hvalue⟩ := VarBind.value_emits h hnonneg
  have hname : Emits [⟨encOid vb.ident, vb.lengths.olen⟩] (oidOctets vb.ident) := by
    rw [holen]
    exact Emits.singleton (writes_oid (LegalOid.length_ne_one h.1))
  unfold VarBind.content
  rw [List.append_assoc _ _ [vb.value.field vb.lengths.vlen]]
  exact (tlv_emits _ hname holen rfl).append (tlv_emits _ hvalue hvlen rfl)

/-- The length field of a binding is the length of what is inside. -/
theorem VarBind.seqlen_eq : vb.lengths.seqlen = vb.inner.length := by
  have holen := VarBind.olen_eq h hnonneg
  obtain ⟨hvlen, -⟩ := VarBind.value_emits h hnonneg
  have ho : vb.lengths.olen < 2^8 := encOidCnt_lt vb.ident
  have hv := h.vlen_lt
  have hlenlen : ∀ n, encLengthCnt n ≤ 3 := by
    intro n
    unfold encLengthCnt
    split
    · omega
    split <;> omega
  have hol := hlenlen vb.lengths.olen
  have hvl := hlenlen vb.lengths.vlen
  unfold VarBind.inner
  rw [List.length_append, tlv_length, tlv_length, ← holen, ← hvlen]
  show u16 (u16 (1 + encLengthCnt vb.lengths.vlen + vb.lengths.vlen) +
    (1 + encLengthCnt vb.lengths.olen + vb.lengths.olen)) = _
  have hu16 : u16 (1 + encLengthCnt vb.lengths.vlen + vb.lengths.vlen) =
      1 + encLengthCnt vb.lengths.vlen + vb.lengths.vlen := Nat.mod_eq_of_lt (by omega)
  rw [hu16, Nat.add_comm]
  exact Nat.mod_eq_of_lt (by omega)

/-- A binding is its fields. -/
theorem VarBind.emits : Emits vb.fields vb.octets :=
  tlv_emits _ (VarBind.inner_emits h hnonneg) (VarBind.seqlen_eq h hnonneg) rfl

end VarBind

/-! ## The list -/

/-- The octets of a list of bindings. -/
def listOctets (root : List VarBind) : List UInt8 :=
  tlv (SNMP_ASN1_UNIV ||| SNMP_ASN1_CONSTR ||| SNMP_ASN1_SEQ) (root.flatMap VarBind.octets)

section List

variable {root : List VarBind} (h : ∀ vb ∈ root, vb.Legal) (hnonneg : ∀ vb ∈ root, vb.Nonneg)

include h hnonneg

/-- The count of the bindings is their length. -/
theorem varbindsSum_eq (hfits : (root.flatMap VarBind.octets).length < 2^16) :
    varbindsSum root = (root.flatMap VarBind.octets).length := by
  induction root with
  | nil => rfl
  | cons vb root ih =>
    rw [List.flatMap_cons, List.length_append] at hfits ⊢
    have hseq := VarBind.seqlen_eq (h vb List.mem_cons_self) (hnonneg vb List.mem_cons_self)
    have hrest := ih (fun b hb => h b (List.mem_cons_of_mem vb hb))
      (fun b hb => hnonneg b (List.mem_cons_of_mem vb hb))
      (by omega)
    have hlen : vb.octets.length = 1 + vb.lengths.seqlenlen + vb.lengths.seqlen := by
      show (tlv _ vb.inner).length = 1 + encLengthCnt vb.lengths.seqlen + _
      rw [tlv_length, hseq]
    show u16 (varbindsSum root + (1 + vb.lengths.seqlenlen + vb.lengths.seqlen)) = _
    rw [hrest, ← hlen, Nat.add_comm]
    exact Nat.mod_eq_of_lt (by omega)

/-- The bindings are their fields. -/
theorem varbinds_emits : Emits (root.flatMap VarBind.fields) (root.flatMap VarBind.octets) :=
  Emits.flatMap fun vb hvb => VarBind.emits (h vb hvb) (hnonneg vb hvb)

/-- The list is its fields. -/
theorem list_emits (hfits : (root.flatMap VarBind.octets).length < 2^16) :
    Emits (varbindListFields root) (listOctets root) :=
  tlv_emits _ (varbinds_emits h hnonneg) (varbindsSum_eq h hnonneg hfits) rfl

/-- The count of the list is its length. -/
theorem list_tot_len (hfits : (listOctets root).length < 2^16) :
    (varbindListSum root).tot_len = (listOctets root).length := by
  unfold listOctets at hfits ⊢
  rw [tlv_length] at hfits ⊢
  have hsum := varbindsSum_eq h hnonneg (by omega)
  show u16 (varbindsSum root + (1 + encLengthCnt (varbindsSum root))) = _
  rw [hsum, Nat.add_comm]
  exact Nat.mod_eq_of_lt hfits

end List

/-! ## The message -/

/-- An integer of the header. -/
def integOctets (value : ℤ) : List UInt8 :=
  tlv (SNMP_ASN1_UNIV ||| SNMP_ASN1_PRIMIT ||| SNMP_ASN1_INTEG)
    (valueOctets value (encS32tCnt value))

/-- The octets inside the response PDU. -/
def pduInner (m_stat : MsgPstat) (root : List VarBind) : List UInt8 :=
  integOctets m_stat.rid ++ integOctets m_stat.error_status ++ integOctets m_stat.error_index ++
    listOctets root

/-- The octets inside the message. -/
def msgInner (m_stat : MsgPstat) (root : List VarBind) : List UInt8 :=
  integOctets snmp_version ++
    tlv (SNMP_ASN1_UNIV ||| SNMP_ASN1_PRIMIT ||| SNMP_ASN1_OC_STR) m_stat.community ++
    tlv (SNMP_ASN1_CONTXT ||| SNMP_ASN1_CONSTR ||| SNMP_ASN1_PDU_GET_RESP) (pduInner m_stat root)

/-- The octets of a response. -/
def respOctets (m_stat : MsgPstat) (root : List VarBind) : List UInt8 :=
  tlv (SNMP_ASN1_UNIV ||| SNMP_ASN1_CONSTR ||| SNMP_ASN1_SEQ) (msgInner m_stat root)

/-- An integer is its fields. -/
theorem integ_emits (value : ℤ) :
    Emits (integFields value (encS32tCnt value) (encLengthCnt (encS32tCnt value)))
    (integOctets value) := by
  have hlen := encS32tOctets_length value
  have hone := Emits.singleton (writes_s32t (encS32tCnt value) value)
  rw [hlen] at hone
  exact tlv_emits _ hone hlen.symm rfl

section Header

variable {m_stat : MsgPstat} {vb_len : ℕ}

/-- The length of an integer. -/
theorem integOctets_length (value : ℤ) :
    (integOctets value).length = 1 + encLengthCnt (encS32tCnt value) + encS32tCnt value := by
  unfold integOctets
  rw [tlv_length, encS32tOctets_length]

/-- The length of the PDU. -/
theorem respHeaderSum_pdulen (h : vb_len + (integOctets m_stat.error_index).length +
    (integOctets m_stat.error_status).length + (integOctets m_stat.rid).length < 2^16) :
    (respHeaderSum m_stat vb_len).pdulen = vb_len + (integOctets m_stat.error_index).length +
      (integOctets m_stat.error_status).length + (integOctets m_stat.rid).length := by
  show u16 (u16 (u16 (vb_len + _) + _) + _) = _
  rw [← integOctets_length, ← integOctets_length, ← integOctets_length]
  unfold u16
  rw [Nat.mod_eq_of_lt (by omega : vb_len + (integOctets m_stat.error_index).length < 2^16),
    Nat.mod_eq_of_lt (by omega : vb_len + (integOctets m_stat.error_index).length +
      (integOctets m_stat.error_status).length < 2^16), Nat.mod_eq_of_lt h]

/-- The length of the message behind its own length field. -/
theorem respHeaderSum_seqlen {pdulen : ℕ} (hpdu : (respHeaderSum m_stat vb_len).pdulen = pdulen)
    (h : pdulen + (1 + encLengthCnt pdulen) + (1 + encLengthCnt m_stat.community.length +
      m_stat.community.length) +
      (integOctets snmp_version).length < 2^16) :
    (respHeaderSum m_stat vb_len).seqlen = pdulen + (1 + encLengthCnt pdulen) +
      (1 + encLengthCnt m_stat.community.length + m_stat.community.length) +
        (integOctets snmp_version).length := by
  subst hpdu
  show u16 (u16 (u16 ((respHeaderSum m_stat vb_len).pdulen +
    (1 + encLengthCnt (respHeaderSum m_stat vb_len).pdulen)) +
    (1 + encLengthCnt m_stat.community.length + m_stat.community.length)) +
    (1 + encS32tCnt snmp_version + encLengthCnt (encS32tCnt snmp_version))) = _
  rw [integOctets_length] at h ⊢
  generalize (respHeaderSum m_stat vb_len).pdulen = pdulen at h ⊢
  unfold u16
  omega

/-- The length of the whole message. -/
theorem respHeaderSum_tot_len {seqlen : ℕ} (hseq : (respHeaderSum m_stat vb_len).seqlen = seqlen)
    (h : seqlen + (1 + encLengthCnt seqlen) < 2^16) :
    (respHeaderSum m_stat vb_len).tot_len = seqlen + (1 + encLengthCnt seqlen) := by
  subst hseq
  exact Nat.mod_eq_of_lt h

end Header

/-- The fields of a response. -/
def respFields (m_stat : MsgPstat) (root : List VarBind) : List Field :=
  respHeaderFields m_stat (respLengths m_stat root) ++ varbindListFields root

/-- Fields are written one after the other. -/
theorem encFields_append (fs fs' : List Field) (p : List (List UInt8)) (ofs : ℕ) :
    encFields (fs ++ fs') p ofs = encFields fs' (encFields fs p ofs).1 (encFields fs p ofs).2 := by
  induction fs generalizing p ofs with
  | nil => rfl
  | cons f fs ih => exact ih _ _

/-- The two functions of the second pass write the fields in turn. -/
theorem respEnc_eq (m_stat : MsgPstat) (root : List VarBind) (p : List (List UInt8)) :
    respEnc m_stat root p = encFields (respFields m_stat root) p 0 :=
  (encFields_append _ _ p 0).symm

/-- The counts are added up. -/
theorem total_append (fs fs' : List Field) : total (fs ++ fs') = total fs + total fs' := by
  unfold total
  rw [List.map_append, List.sum_append]

/-- The count of a head. -/
theorem total_headFields (type : UInt8) (len lenlen : ℕ) :
    total (headFields type len lenlen) = 1 + lenlen := rfl

/-- What the fields of a response count. -/
theorem total_respFields (m_stat : MsgPstat) (root : List VarBind) :
    total (respFields m_stat root) =
      1 + (respLengths m_stat root).seqlenlen + (integOctets snmp_version).length +
      (1 + encLengthCnt m_stat.community.length + m_stat.community.length) +
      (1 + (respLengths m_stat root).pdulenlen) + (integOctets m_stat.rid).length +
      (integOctets m_stat.error_status).length + (integOctets m_stat.error_index).length +
      total (varbindListFields root) := by
  have hver : total (integFields snmp_version (respLengths m_stat root).verlen
    (respLengths m_stat root).verlenlen) =
      (integOctets snmp_version).length := (integ_emits snmp_version).total
  have hrid : total (integFields m_stat.rid (respLengths m_stat root).ridlen
    (respLengths m_stat root).ridlenlen) =
      (integOctets m_stat.rid).length := (integ_emits m_stat.rid).total
  have hstat : total (integFields m_stat.error_status (respLengths m_stat root).errstatlen
      (respLengths m_stat root).errstatlenlen) = (integOctets m_stat.error_status).length :=
    (integ_emits m_stat.error_status).total
  have hidx : total (integFields m_stat.error_index (respLengths m_stat root).erridxlen
      (respLengths m_stat root).erridxlenlen) = (integOctets m_stat.error_index).length :=
    (integ_emits m_stat.error_index).total
  have hcom : total [⟨encRaw m_stat.community, (respLengths m_stat root).comlen⟩] =
      m_stat.community.length :=
    rfl
  have hcomlenlen : (respLengths m_stat root).comlenlen = encLengthCnt m_stat.community.length :=
    rfl
  unfold respFields respHeaderFields respMsgFields respPduFields
  simp only [total_append, total_headFields]
  omega

section Message

variable {m_stat : MsgPstat} {root : List VarBind} (h : ∀ vb ∈ root, vb.Legal)
  (hnonneg : ∀ vb ∈ root, vb.Nonneg)
  (hfits : total (respFields m_stat root) < 2^16)

include h hnonneg hfits

/-- The list fits into the message. -/
theorem list_fits : Emits (varbindListFields root) (listOctets root) ∧
    (varbindListSum root).tot_len = (listOctets root).length ∧
    (listOctets root).length = total (varbindListFields root) := by
  have hlist : total (root.flatMap VarBind.fields) ≤ total (varbindListFields root) := by
    unfold varbindListFields
    rw [total_append]
    exact Nat.le_add_left _ _
  unfold respFields at hfits
  rw [total_append] at hfits
  have hvbs := (varbinds_emits h hnonneg).total
  have hemits := list_emits h hnonneg (by omega)
  have htotal := hemits.total
  exact ⟨hemits, list_tot_len h hnonneg (by omega), htotal.symm⟩

/-- The lengths of the header are those of the contents. -/
theorem respLengths_eq : (respLengths m_stat root).pdulen = (pduInner m_stat root).length ∧
    (respLengths m_stat root).seqlen = (msgInner m_stat root).length ∧
    (respLengths m_stat root).tot_len = (respOctets m_stat root).length := by
  obtain ⟨-, htot, hlen⟩ := list_fits h hnonneg hfits
  have hsum := total_respFields m_stat root
  rw [← hlen] at hsum
  have hpduLen : (pduInner m_stat root).length = (listOctets root).length +
    (integOctets m_stat.error_index).length +
      (integOctets m_stat.error_status).length + (integOctets m_stat.rid).length := by
    unfold pduInner
    rw [List.length_append, List.length_append, List.length_append]
    omega
  have hpdu : (respLengths m_stat root).pdulen = (pduInner m_stat root).length := by
    unfold respLengths
    rw [htot, respHeaderSum_pdulen (by omega), hpduLen]
  have hmsgLen : (msgInner m_stat root).length = (pduInner m_stat root).length +
      (1 + encLengthCnt (pduInner m_stat root).length) +
      (1 + encLengthCnt m_stat.community.length + m_stat.community.length) +
        (integOctets snmp_version).length := by
    unfold msgInner
    rw [List.length_append, List.length_append, tlv_length, tlv_length]
    omega
  have hpdulenlen : (respLengths m_stat root).pdulenlen =
      encLengthCnt (pduInner m_stat root).length :=
    congrArg encLengthCnt hpdu
  have hseq : (respLengths m_stat root).seqlen = (msgInner m_stat root).length := by
    rw [hmsgLen]
    exact respHeaderSum_seqlen hpdu (by omega)
  have hseqlenlen : (respLengths m_stat root).seqlenlen =
      encLengthCnt (msgInner m_stat root).length :=
    congrArg encLengthCnt hseq
  have htotLen : (respLengths m_stat root).tot_len = (respOctets m_stat root).length := by
    unfold respOctets
    rw [tlv_length, Nat.add_comm _ (msgInner m_stat root).length]
    exact respHeaderSum_tot_len hseq (by omega)
  exact ⟨hpdu, hseq, htotLen⟩

/-- The PDU is its fields. -/
theorem pdu_emits : Emits (respPduFields m_stat (respLengths m_stat root) ++ varbindListFields root)
    (pduInner m_stat root) := by
  obtain ⟨hlist, -⟩ := list_fits h hnonneg hfits
  exact (((integ_emits m_stat.rid).append (integ_emits m_stat.error_status)).append
    (integ_emits m_stat.error_index)).append hlist

/-- The message is its fields. -/
theorem msg_emits : Emits (respMsgFields m_stat (respLengths m_stat root) ++ varbindListFields root)
    (msgInner m_stat root) := by
  obtain ⟨hpdu, -⟩ := respLengths_eq h hnonneg hfits
  have hcom : Emits [⟨encRaw m_stat.community, (respLengths m_stat root).comlen⟩]
      m_stat.community :=
    Emits.singleton (writes_raw m_stat.community)
  have hparts := ((integ_emits snmp_version).append
    (tlv_emits (SNMP_ASN1_UNIV ||| SNMP_ASN1_PRIMIT ||| SNMP_ASN1_OC_STR) hcom rfl rfl)).append
    (tlv_emits (SNMP_ASN1_CONTXT ||| SNMP_ASN1_CONSTR ||| SNMP_ASN1_PDU_GET_RESP)
      (pdu_emits h hnonneg hfits) hpdu rfl)
  unfold respMsgFields
  simp only [List.append_assoc] at hparts ⊢
  exact hparts

/-- The response is its fields. -/
theorem resp_emits : Emits (respFields m_stat root) (respOctets m_stat root) := by
  obtain ⟨-, hseq, -⟩ := respLengths_eq h hnonneg hfits
  have hall := tlv_emits (SNMP_ASN1_UNIV ||| SNMP_ASN1_CONSTR ||| SNMP_ASN1_SEQ)
    (msg_emits h hnonneg hfits) hseq rfl
  unfold respFields respHeaderFields
  rw [List.append_assoc]
  exact hall

end Message

end Lwip.Snmp
