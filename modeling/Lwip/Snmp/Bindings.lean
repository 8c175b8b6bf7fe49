import Lwip.Snmp.Response

/-!
# The list of bindings of a response is read

`snmp_pdu_dec_varbindlist` on the octets of a list of bindings, at their place in a chain of pbufs.
Every binding is read as it was written (`decVarbind_spec`), with one exception: an identifier
without elements as the last value of the message is looked for behind the message. The count of the
list is an `u8_t`, so that a list with more than 256 bindings starts anew.
-/

namespace Lwip.Snmp

section Read

variable {c : Chain} {ofs : ℕ} {tail : List UInt8}

/-- What follows octets of a chain. -/
theorem drop_add {bs : List UInt8} (h : c.octets.drop ofs = bs ++ tail) :
    c.octets.drop (ofs + bs.length) = tail := by
  rw [← List.drop_drop, h, List.drop_left]

/-- What is read ends in the chain. -/
theorem ofs_le {bs : List UInt8} (hne : bs ≠ []) (h : c.octets.drop ofs = bs ++ tail) :
    ofs + bs.length ≤ c.octets.length := by
  have hpos := List.length_pos_iff.mpr hne
  have hlen := congrArg List.length h
  rw [List.length_drop, List.length_append] at hlen
  omega

/-- The type is read. -/
theorem readType_eq {type b : UInt8} (h : c.octets.drop ofs = b :: tail) :
    readType c.pbufs ofs type = b := by
  have hwalk : (walk decType c.pbufs ofs).1 = .ok b := by
    apply walk_fst (List.cons_ne_nil b []) h
    intro x hv hr
    exact congrArg Prod.fst (take_spec hv hr)
  unfold readType
  rw [hwalk]

/-- A length has an octet. -/
theorem lengthOctets_ne_nil (n : ℕ) : lengthOctets n ≠ [] := by
  unfold lengthOctets
  split
  · exact List.cons_ne_nil _ _
  split <;> exact List.cons_ne_nil _ _

/-- A type and a length are read, and the content is behind them. -/
theorem tlv_read {type : UInt8} {content : List UInt8}
    (h : c.octets.drop ofs = tlv type content ++ tail) : (∀ t, readType c.pbufs ofs t = type) ∧
      (walk decLength c.pbufs (u16 (ofs + 1))).1 = .ok
      (encLengthCnt content.length, content.length) ∧
      c.octets.drop (u16 (ofs + 1 + encLengthCnt content.length)) = content ++ tail ∧
      u16 (ofs + (1 + encLengthCnt content.length)) = ofs + (1 + encLengthCnt content.length) ∧
      u16 (ofs + (1 + encLengthCnt content.length + content.length)) =
      ofs + (tlv type content).length := by
  have hle : ofs + (tlv type content).length ≤ c.octets.length := ofs_le (List.cons_ne_nil _ _) h
  have hlen := tlv_length type content
  have hfits : c.octets.length < 2^16 := c.tot_len
  have hu16 : ∀ n ≤ c.octets.length, u16 n = n := fun n hn => Nat.mod_eq_of_lt (by omega)
  have hcons : c.octets.drop ofs =
      [type] ++ (lengthOctets content.length ++ (content ++ tail)) := by
    rw [h, tlv, List.cons_append, List.append_assoc]
    rfl
  have hlength := drop_add hcons
  have hcontent := drop_add hlength
  rw [lengthOctets_length] at hcontent
  have hcontent : c.octets.drop (ofs + 1 + encLengthCnt content.length) =
    content ++ tail := hcontent
  refine ⟨fun t => readType_eq hcons, ?_, ?_, hu16 _ (by omega), ?_⟩
  · rw [hu16 _ (by omega)]
    apply walk_fst (lengthOctets_ne_nil _) hlength
    intro x hv hr
    exact decLength_spec hv (by omega) hr
  · rwa [hu16 _ (by omega)]
  · rw [hu16 _ (by omega), hlen]

/-- An identifier is read; one without elements needs an octet behind it. -/
theorem decOid_read (old : ℕ → ℤ) {ident : List ℤ} (hlegal : LegalOid ident)
    (hnonneg : NonnegOid ident)
    (hend : ident = [] → tail ≠ []) (h : c.octets.drop ofs = oidOctets ident ++ tail) :
    (walk (decOid old (oidOctets ident).length) c.pbufs ofs).1 = .ok ident := by
  match ident with
  | [] =>
    have hdrop : c.octets.drop ofs = tail ++ [] := by
      rw [h, List.append_nil]
      rfl
    exact walk_fst (hend rfl) hdrop fun x hv hr => rfl
  | [_] => exact hlegal.elim
  | a :: b :: ident =>
    obtain ⟨hpair, hlen, hids⟩ := hlegal
    apply walk_fst (List.cons_ne_nil _ _) h
    intro x hv hr
    apply decOid_spec hv old hpair _ (Nat.le_of_add_le_add_right hlen) hr
    intro id hid
    exact ⟨hnonneg id (List.mem_cons_of_mem _ (List.mem_cons_of_mem _ hid)), (hids id hid).2⟩

/-- The string is read. -/
theorem decRaw_read {raw : List UInt8} {raw_len : ℕ} (hle : raw.length ≤ raw_len)
    (h : c.octets.drop ofs = raw ++ tail) : decRaw c.pbufs ofs raw.length raw_len = .ok raw := by
  unfold decRaw
  cases raw with
  | nil => rfl
  | cons b raw =>
    have hpos : 0 < (b :: raw).length := Nat.succ_pos _
    rw [if_pos hpos, if_pos hle]
    exact walk_fst (List.cons_ne_nil b raw) h fun x hv hr =>
      decRawOctets_spec hv (List.cons_ne_nil b raw) hr

/-- The number is read. -/
theorem decU32t_read {v : ℕ} (hlt : v < 2^32)
    (h : c.octets.drop ofs = u32tOctets (encU32tCnt v) v ++ tail) :
    (walk (decU32t (u32tOctets (encU32tCnt v) v).length) c.pbufs ofs).1 = .ok v := by
  rw [u32tOctets_length]
  apply walk_fst _ h
  · intro x hv hr
    exact decU32t_spec hv hlt hr
  · rw [u32tOctets_eq hlt]
    exact valueOctets_ne_nil v _

/-- The value is read that was written. -/
theorem decVarValue_spec (old : ℕ → ℤ) {value : VarValue} (hlegal : value.Legal)
    (hnonneg : ∀ ident, value = .OBJ_ID ident → NonnegOid ident)
    (hend : value = .OBJ_ID [] → tail ≠ []) (h : c.octets.drop ofs = value.octets ++ tail) :
    decVarValue old c.pbufs value.value_type ofs value.octets.length = .ok value := by
  cases value with
  | INTEG v =>
    have hwalk : (walk (decS32t (encS32tCnt v)) c.pbufs ofs).1 = .ok v :=
      walk_fst (valueOctets_ne_nil v _) h fun x hv hr => decS32t_spec hv hlegal.1 hlegal.2 hr
    show VarValue.INTEG <$> (walk (decS32t (valueOctets v (encS32tCnt v)).length) c.pbufs ofs).1 = _
    rw [encS32tOctets_length, hwalk]
    rfl
  | COUNTER v =>
    show VarValue.COUNTER <$>
      (walk (decU32t (u32tOctets (encU32tCnt v) v).length) c.pbufs ofs).1 = _
    rw [decU32t_read hlegal h]
    rfl
  | GAUGE v =>
    show VarValue.GAUGE <$> (walk (decU32t (u32tOctets (encU32tCnt v) v).length) c.pbufs ofs).1 = _
    rw [decU32t_read hlegal h]
    rfl
  | TIMETICKS v =>
    show VarValue.TIMETICKS <$>
      (walk (decU32t (u32tOctets (encU32tCnt v) v).length) c.pbufs ofs).1 = _
    rw [decU32t_read hlegal h]
    rfl
  | OC_STR bs =>
    have hu8 : bs.length = u8 bs.length := (Nat.mod_eq_of_lt (Nat.lt_succ_of_le hlegal)).symm
    have hraw : decRaw c.pbufs ofs bs.length (u8 bs.length) = .ok bs :=
      decRaw_read (Nat.le_of_eq hu8) h
    show VarValue.OC_STR <$> decRaw c.pbufs ofs bs.length (u8 bs.length) = _
    rw [hraw]
    rfl
  | OPAQUE bs =>
    have hu8 : bs.length = u8 bs.length := (Nat.mod_eq_of_lt (Nat.lt_succ_of_le hlegal)).symm
    have hraw : decRaw c.pbufs ofs bs.length (u8 bs.length) = .ok bs :=
      decRaw_read (Nat.le_of_eq hu8) h
    show VarValue.OPAQUE <$> decRaw c.pbufs ofs bs.length (u8 bs.length) = _
    rw [hraw]
    rfl
  | IPADDR bs =>
    have hlen : bs.length = 4 := hlegal
    show (if bs.length = 4 then VarValue.IPADDR <$> decRaw c.pbufs ofs bs.length 4
      else .error .ARG) = _
    have hraw : decRaw c.pbufs ofs bs.length 4 = .ok bs := decRaw_read (Nat.le_of_eq hlen) h
    rw [if_pos hlen, hraw]
    rfl
  | NUL => rfl
  | OBJ_ID ids =>
    have hwalk := decOid_read old hlegal (hnonneg ids rfl) (fun hnil => hend (congrArg _ hnil)) h
    show VarValue.OBJ_ID <$> (walk (decOid old (oidOctets ids).length) c.pbufs ofs).1 = _
    rw [hwalk]
    rfl

/-- A binding is read up to its value. -/
theorem decVarbind_value (old : ℕ → ℤ) {vb : VarBind} {s : DecVars} (hlegal : vb.Legal)
    (hnonneg : vb.Nonneg)
    (h : c.octets.drop s.ofs = vb.octets ++ tail) (hle : vb.octets.length ≤ s.vb_len)
    (hlt : s.vb_len < 2^16) : ∃ ofs, c.octets.drop ofs = vb.value.octets ++ tail ∧
      decVarbind old c.pbufs s = (do
        let value ← decVarValue old c.pbufs vb.value.value_type ofs vb.value.octets.length
        .ok (⟨vb.ident, value⟩, ⟨vb.value.value_type, s.ofs + vb.octets.length,
          s.vb_len - vb.octets.length⟩)) := by
  have hlen := tlv_length (SNMP_ASN1_UNIV ||| SNMP_ASN1_CONSTR ||| SNMP_ASN1_SEQ) vb.inner
  have hinner : vb.inner.length = _ + _ := List.length_append
  have hvlen := tlv_length vb.value.value_type vb.value.octets
  have holen := tlv_length (SNMP_ASN1_UNIV ||| SNMP_ASN1_PRIMIT ||| SNMP_ASN1_OBJ_ID)
    (oidOctets vb.ident)
  have hoct : vb.octets.length = _ := hlen
  obtain ⟨htype, hlength, hdrop, hofs, -⟩ := tlv_read h
  have hinnerDrop : c.octets.drop (s.ofs + (1 + encLengthCnt vb.inner.length)) =
      tlv (SNMP_ASN1_UNIV ||| SNMP_ASN1_PRIMIT ||| SNMP_ASN1_OBJ_ID) (oidOctets vb.ident) ++
        (tlv vb.value.value_type vb.value.octets ++ tail) := by
    rw [← hofs, ← Nat.add_assoc, hdrop, VarBind.inner, List.append_assoc]
  obtain ⟨htype₁, hlength₁, hdrop₁, -, hnext₁⟩ := tlv_read hinnerDrop
  have hvalueDrop := drop_add hinnerDrop
  obtain ⟨htype₂, hlength₂, hdrop₂, -, hnext₂⟩ := tlv_read hvalueDrop
  have hoid := decOid_read old hlegal.1 hnonneg.1 (fun _ => List.cons_ne_nil _ _) hdrop₁
  have hseq : ¬ (vb.inner.length = 0 ∨ vb.inner.length > s.vb_len) := by omega
  refine ⟨_, hdrop₂, ?_⟩
  unfold decVarbind
  simp only [htype, hlength, ok_bind, hofs, htype₁, hlength₁, hoid, hnext₁, htype₂, hlength₂,
    hnext₂, ne_eq, not_true_eq_false, false_or, if_false, if_neg hseq]
  have hleft : u16sub s.vb_len (1 + encLengthCnt vb.inner.length) =
      vb.inner.length + s.vb_len - vb.octets.length := by
    rw [u16sub_of_le (by omega) (by omega)]
    omega
  have hleft₁ : u16sub (vb.inner.length + s.vb_len - vb.octets.length)
      (1 + encLengthCnt (oidOctets vb.ident).length + (oidOctets vb.ident).length) =
      (tlv vb.value.value_type vb.value.octets).length + s.vb_len - vb.octets.length := by
    rw [u16sub_of_le (by omega) (by omega)]
    omega
  have hleft₂ : u16sub ((tlv vb.value.value_type vb.value.octets).length + s.vb_len -
      vb.octets.length)
      (1 + encLengthCnt vb.value.octets.length + vb.value.octets.length) =
        s.vb_len - vb.octets.length := by
    rw [u16sub_of_le (by omega) (by omega)]
    omega
  rw [hleft, hleft₁, hleft₂]
  have hofs' : s.ofs + (1 + encLengthCnt vb.inner.length) +
      (tlv (SNMP_ASN1_UNIV ||| SNMP_ASN1_PRIMIT ||| SNMP_ASN1_OBJ_ID) (oidOctets vb.ident)).length +
      (tlv vb.value.value_type vb.value.octets).length = s.ofs + vb.octets.length := by omega
  rw [hofs']

/-- A binding is read. -/
theorem decVarbind_spec (old : ℕ → ℤ) {vb : VarBind} {s : DecVars} (hlegal : vb.Legal)
    (hnonneg : vb.Nonneg)
    (hend : vb.value = .OBJ_ID [] → tail ≠ []) (h : c.octets.drop s.ofs = vb.octets ++ tail)
    (hle : vb.octets.length ≤ s.vb_len) (hlt : s.vb_len < 2^16) :
    decVarbind old c.pbufs s =
      .ok (vb, ⟨vb.value.value_type, s.ofs + vb.octets.length, s.vb_len - vb.octets.length⟩) := by
  obtain ⟨ofs, hdrop, hdec⟩ := decVarbind_value old hlegal hnonneg h hle hlt
  rw [hdec, decVarValue_spec old hlegal.2 hnonneg.2 hend hdrop]
  rfl

/-- An identifier without elements is not found behind the message. -/
theorem decVarbind_end (old : ℕ → ℤ) {vb : VarBind} {s : DecVars} (hlegal : vb.Legal)
    (hnonneg : vb.Nonneg) (hvalue : vb.value = .OBJ_ID []) (h : c.octets.drop s.ofs = vb.octets)
    (hle : vb.octets.length ≤ s.vb_len) (hlt : s.vb_len < 2^16) :
    decVarbind old c.pbufs s = .error .ARG := by
  rw [← List.append_nil vb.octets] at h
  obtain ⟨ofs, hdrop, hdec⟩ := decVarbind_value old hlegal hnonneg h hle hlt
  rw [hvalue] at hdrop hdec
  have hwalk := walk_end c (List.drop_eq_nil_iff.mp hdrop) (decOid old 0)
  have herr : decVarValue old c.pbufs (VarValue.OBJ_ID []).value_type ofs
      (VarValue.OBJ_ID []).octets.length = .error .ARG := by
    show VarValue.OBJ_ID <$> (walk (decOid old 0) c.pbufs ofs).1 = _
    rw [hwalk]
    rfl
  rw [hdec, herr]
  rfl

end Read

/-! ## Lists -/

/-- A binding has octets. -/
theorem VarBind.octets_ne_nil (vb : VarBind) : vb.octets ≠ [] := List.cons_ne_nil _ _

section List

variable {c : Chain} {root : List VarBind} {tail : List UInt8}

/-- Bindings in front of others are read. -/
theorem decVarbinds_run (old : ℕ → ℤ) {s : DecVars} (hlegal : ∀ vb ∈ root, vb.Legal)
    (hnonneg : ∀ vb ∈ root, vb.Nonneg)
    (htail : tail ≠ []) (h : c.octets.drop s.ofs = root.flatMap VarBind.octets ++ tail) {rest : ℕ}
    (hlen : s.vb_len = (root.flatMap VarBind.octets).length + rest) (hlt : s.vb_len < 2^16)
    (fuel : ℕ) (invb : VarbindRoot) :
    ∃ type, decVarbinds old c.pbufs (root.length + fuel) s invb =
      decVarbinds old c.pbufs fuel ⟨type, s.ofs + (root.flatMap VarBind.octets).length, rest⟩
        (root.foldl VarbindRoot.tailAdd invb) := by
  induction root generalizing s invb with
  | nil =>
    refine ⟨s.type, ?_⟩
    rw [List.flatMap_nil, List.length_nil, Nat.zero_add] at hlen
    rw [List.length_nil, Nat.zero_add, ← hlen]
    rfl
  | cons vb root ih =>
    have hpos := List.length_pos_iff.mpr vb.octets_ne_nil
    rw [List.flatMap_cons, List.append_assoc] at h
    rw [List.flatMap_cons, List.length_append] at hlen
    have hdec := decVarbind_spec old (hlegal vb List.mem_cons_self) (hnonneg vb List.mem_cons_self)
      (fun _ => List.append_ne_nil_of_right_ne_nil _ htail) h (by omega) hlt
    have hnext := drop_add h
    obtain ⟨type, hrun⟩ := ih (s := ⟨vb.value.value_type, s.ofs + vb.octets.length,
      s.vb_len - vb.octets.length⟩)
      (fun b hb => hlegal b (List.mem_cons_of_mem vb hb))
      (fun b hb => hnonneg b (List.mem_cons_of_mem vb hb)) hnext
      (by dsimp only; omega) (by dsimp only; omega) (invb.tailAdd vb)
    refine ⟨type, ?_⟩
    have hfuel : (vb :: root).length + fuel = root.length + fuel + 1 := by
      rw [List.length_cons]
      omega
    have hmore : s.vb_len > 0 := by omega
    rw [hfuel, decVarbinds, if_pos hmore, hdec]
    dsimp only
    rw [hrun, List.flatMap_cons, List.length_append, Nat.add_assoc]
    rfl

/-- The whole list is read, if there is an octet behind an identifier without elements. -/
theorem decVarbinds_spec (old : ℕ → ℤ) {s : DecVars} (hlegal : ∀ vb ∈ root, vb.Legal)
    (hnonneg : ∀ vb ∈ root, vb.Nonneg)
    (hend : ∀ vb, root.getLast? = some vb → vb.value ≠ .OBJ_ID [])
    (h : c.octets.drop s.ofs = root.flatMap VarBind.octets)
    (hlen : s.vb_len = (root.flatMap VarBind.octets).length)
    (hlt : s.vb_len < 2^16) {fuel : ℕ} (hfuel : root.length < fuel) (invb : VarbindRoot) :
    decVarbinds old c.pbufs fuel s invb =
      some (.ok (s.ofs + (root.flatMap VarBind.octets).length,
      root.foldl VarbindRoot.tailAdd invb)) := by
  obtain ⟨n, rfl⟩ : ∃ n, fuel = n + 1 := ⟨fuel - 1, by omega⟩
  rcases List.eq_nil_or_concat root with rfl | ⟨init, vb, rfl⟩
  · have hzero : ¬ s.vb_len > 0 := by
      rw [hlen]
      exact Nat.lt_irrefl 0
    rw [decVarbinds, if_neg hzero]
    rfl
  rw [List.concat_eq_append] at *
  have hmem : ∀ b ∈ init, b ∈ init ++ [vb] := fun b hb => List.mem_append_left _ hb
  have hvb : vb ∈ init ++ [vb] := List.mem_append_right _ List.mem_cons_self
  have hsplit : (init ++ [vb]).flatMap VarBind.octets = init.flatMap VarBind.octets ++
      vb.octets := by
    rw [List.flatMap_append, List.flatMap_singleton]
  rw [hsplit] at h
  rw [hsplit, List.length_append] at hlen ⊢
  rw [List.length_append, List.length_singleton] at hfuel
  obtain ⟨m, rfl⟩ : ∃ m, n = init.length + (m + 1) := ⟨n - init.length - 1, by omega⟩
  obtain ⟨type, hrun⟩ := decVarbinds_run old (fun b hb => hlegal b (hmem b hb))
    (fun b hb => hnonneg b (hmem b hb))
    vb.octets_ne_nil h hlen hlt (m + 2) invb
  have hlast := drop_add h
  rw [← List.append_nil vb.octets] at hlast
  have hpos := List.length_pos_iff.mpr vb.octets_ne_nil
  have hdec := decVarbind_spec old
    (s := ⟨type, s.ofs + (init.flatMap VarBind.octets).length, vb.octets.length⟩) (hlegal vb hvb)
      (hnonneg vb hvb)
    (fun hv => absurd hv (hend vb (by rw [List.getLast?_append]; rfl))) hlast (Nat.le_refl _)
      (by dsimp only; omega)
  rw [Nat.sub_self] at hdec
  rw [show init.length + (m + 1) + 1 = init.length + (m + 2) from rfl, hrun, decVarbinds,
    if_pos hpos, hdec]
  dsimp only
  rw [decVarbinds, if_neg (Nat.lt_irrefl 0), List.foldl_append, Nat.add_assoc]
  rfl

/-- A list with an identifier without elements as its last value is not read. -/
theorem decVarbinds_end (old : ℕ → ℤ) {s : DecVars} {init : List VarBind} {vb : VarBind}
    (hlegal : ∀ b ∈ init ++ [vb], b.Legal) (hnonneg : ∀ b ∈ init ++ [vb], b.Nonneg)
    (hvalue : vb.value = .OBJ_ID [])
    (h : c.octets.drop s.ofs = (init ++ [vb]).flatMap VarBind.octets)
    (hlen : s.vb_len = ((init ++ [vb]).flatMap VarBind.octets).length)
    (hlt : s.vb_len < 2^16) (fuel : ℕ)
    (invb : VarbindRoot) : decVarbinds old c.pbufs (init.length + (fuel + 1)) s invb = some
    (.error .ARG) := by
  have hmem : ∀ b ∈ init, b ∈ init ++ [vb] := fun b hb => List.mem_append_left _ hb
  have hvb : vb ∈ init ++ [vb] := List.mem_append_right _ List.mem_cons_self
  rw [List.flatMap_append, List.flatMap_singleton] at h hlen
  rw [List.length_append] at hlen
  obtain ⟨type, hrun⟩ := decVarbinds_run old (fun b hb => hlegal b (hmem b hb))
    (fun b hb => hnonneg b (hmem b hb))
    vb.octets_ne_nil h hlen hlt (fuel + 1) invb
  have hpos := List.length_pos_iff.mpr vb.octets_ne_nil
  have hdec := decVarbind_end old
    (s := ⟨type, s.ofs + (init.flatMap VarBind.octets).length, vb.octets.length⟩) (hlegal vb hvb)
      (hnonneg vb hvb)
    hvalue (drop_add h) (Nat.le_refl _) (by dsimp only; omega)
  rw [hrun, decVarbinds, if_pos hpos, hdec]

/-! ## The count of a list -/

/-- The count of a list is right, up to a full `u8_t`. -/
def VarbindRoot.Counted (r : VarbindRoot) : Prop := r.count = u8 r.vbs.length ∧ r.vbs.length ≤ 256

/-- A binding is added at the tail, unless the count has wrapped around. -/
theorem tailAdd_vbs {r : VarbindRoot} (h : r.Counted) (vb : VarBind) :
    (r.tailAdd vb).vbs = if r.vbs.length < 256 then r.vbs ++ [vb] else [vb] := by
  obtain ⟨hcount, hle⟩ := h
  have hcount : r.count = r.vbs.length % 2^8 := hcount
  show (if r.count = 0 then [vb] else r.vbs ++ [vb]) = _
  by_cases hzero : r.vbs = []
  · rw [hzero]
    split <;> rfl
  · have hpos := List.length_pos_iff.mpr hzero
    by_cases hfull : r.vbs.length < 256
    · rw [if_pos hfull, if_neg (by omega)]
    · rw [if_neg hfull, if_pos (by omega)]

/-- The count of a list with one binding more. -/
theorem tailAdd_counted {r : VarbindRoot} (h : r.Counted) (vb : VarBind) :
    (r.tailAdd vb).Counted := by
  have hvbs := tailAdd_vbs h vb
  obtain ⟨hcount, hle⟩ := h
  have hcount : r.count = r.vbs.length % 2^8 := hcount
  have hnext : (r.tailAdd vb).count = (r.count + 1) % 2^8 := rfl
  unfold VarbindRoot.Counted u8
  rw [hvbs, hnext, hcount]
  split
  · rw [List.length_append, List.length_singleton]
    omega
  · rw [List.length_singleton]
    omega

/-- Up to 256 bindings are added one behind the other. -/
theorem foldl_tailAdd {r : VarbindRoot} (h : r.Counted) (hle : r.vbs.length + root.length ≤ 256) :
    root.foldl VarbindRoot.tailAdd r = ⟨r.vbs ++ root, u8 (r.vbs ++ root).length⟩ := by
  induction root generalizing r with
  | nil =>
    rw [List.append_nil, ← h.1]
    rfl
  | cons vb root ih =>
    rw [List.length_cons] at hle
    have hvbs : (r.tailAdd vb).vbs = r.vbs ++ [vb] := by rw [tailAdd_vbs h, if_pos (by omega)]
    have hle' : (r.tailAdd vb).vbs.length + root.length ≤ 256 := by
      rw [hvbs, List.length_append, List.length_singleton]
      omega
    rw [List.foldl_cons, ih (tailAdd_counted h vb) hle', hvbs, List.append_assoc]
    rfl

/-- A list that is read has at most 256 bindings. -/
theorem decVarbinds_counted (old : ℕ → ℤ) (p : List (List UInt8)) (fuel : ℕ) {s : DecVars}
    {invb r : VarbindRoot}
    {ofs : ℕ} (hinvb : invb.Counted) (h : decVarbinds old p fuel s invb = some (.ok (ofs, r))) :
    r.Counted := by
  induction fuel generalizing s invb with
  | zero => cases h
  | succ fuel ih =>
    unfold decVarbinds at h
    split at h
    · split at h
      · cases h
      · exact ih (tailAdd_counted hinvb _) h
    · cases h
      exact hinvb

end List

end Lwip.Snmp
