import Lwip.Snmp.Bindings

/-!
# The two passes agree

For a response, the lengths of the first pass are the numbers of octets of the second one, the
second pass writes the whole message, and the list of bindings is read from it again. There are
three conditions: a negative sub-identifier is counted as one octet but has five, a list is read up
to 256 bindings only, and an identifier without elements is not read at the very end of a message.
-/

namespace Lwip.Snmp

/-- The two passes for a response agree with each other and with `snmp_pdu_dec_varbindlist`. -/
structure TwoPass (m_stat : MsgPstat) (outvb : List VarBind) : Prop where
  /-- Every field writes the octets that are counted for it. -/
  counted : ∀ f ∈ respFields m_stat outvb, ∃ bs, Writes f.enc bs ∧ f.cnt = bs.length
  /-- The length of every sequence is that of the fields inside. -/
  varbinds : ∀ vb ∈ outvb, vb.lengths.seqlen = total vb.content
  list : (varbindListSum outvb).seqlen = total (outvb.flatMap VarBind.fields)
  pdu : (respLengths m_stat outvb).pdulen =
    total (respPduFields m_stat (respLengths m_stat outvb)) + total (varbindListFields outvb)
  msg : (respLengths m_stat outvb).seqlen =
    total (respMsgFields m_stat (respLengths m_stat outvb)) + total (varbindListFields outvb)
  tot_len : (respLengths m_stat outvb).tot_len = total (respFields m_stat outvb)
  /-- All octets of the pbufs are written, whatever is in them before. -/
  written : ∃ msg : List UInt8, msg.length = (respLengths m_stat outvb).tot_len ∧
    ∀ c : Chain, c.octets.length = (respLengths m_stat outvb).tot_len →
      ∃ c' : Chain, respEnc m_stat outvb c.pbufs = (c'.pbufs, (respLengths m_stat outvb).tot_len) ∧
        c'.octets = msg
  /-- The list is read again, from where the header ends. -/
  decoded : ∀ c : Chain, c.octets.length = (respLengths m_stat outvb).tot_len →
    ∀ (type : UInt8) (old : ℕ → ℤ) (fuel : ℕ), outvb.length < fuel →
      pduDecVarbindlist type old fuel (respEnc m_stat outvb c.pbufs).1
        (respHeaderEnc m_stat (respLengths m_stat outvb) c.pbufs).2 =
          some (.ok ((respLengths m_stat outvb).tot_len, ⟨outvb, u8 outvb.length⟩))

/-- The lists for which the passes agree. -/
structure Sendable (outvb : List VarBind) : Prop where
  nonneg : ∀ vb ∈ outvb, vb.Nonneg
  length_le : outvb.length ≤ 256
  last : ∀ vb, outvb.getLast? = some vb → vb.value ≠ .OBJ_ID []

section TwoPass

variable {m_stat : MsgPstat} {outvb : List VarBind} (h : ∀ vb ∈ outvb, vb.Legal)

/-! ## Counts -/

/-- The octets of an identifier are those that are written for it. -/
theorem nonneg_of_writes {ident : List ℤ} (hlegal : LegalOid ident) {bs : List UInt8}
    (hw : Writes (encOid ident) bs) (hcnt : encOidCnt ident = bs.length) : NonnegOid ident := by
  have hoid := writes_oid (LegalOid.length_ne_one hlegal)
  have hlt := encOidCnt_lt ident
  have hge := Writes.length_not_lt hw hoid (oidOctets_length_lt hlegal)
  have hle := Writes.length_not_lt hoid hw (by omega)
  apply (oidOctets_count hlegal).mp
  omega

include h

/-- Where the two passes agree no sub-identifier is negative. -/
theorem TwoPass.nonneg (htwo : TwoPass m_stat outvb) : ∀ vb ∈ outvb, vb.Nonneg := by
  intro vb hvb
  have hfields : ∀ f ∈ vb.content, ∃ bs, Writes f.enc bs ∧ f.cnt = bs.length := by
    intro f hf
    apply htwo.counted
    apply List.mem_append_right
    apply List.mem_append_right
    exact List.mem_flatMap.mpr ⟨vb, hvb, List.mem_append_right _ hf⟩
  constructor
  · have hmem : ⟨encOid vb.ident, encOidCnt vb.ident⟩ ∈ vb.content := by
      unfold VarBind.content
      simp [VarBind.lengths]
    obtain ⟨bs, hw, hcnt⟩ := hfields _ hmem
    exact nonneg_of_writes (h vb hvb).1 hw hcnt
  · intro ident hvalue
    have hlegal : LegalOid ident := by
      have hl := (h vb hvb).2
      rwa [hvalue] at hl
    have hmem : ⟨encOid ident, encOidCnt ident⟩ ∈ vb.content := by
      unfold VarBind.content
      simp [VarBind.lengths, hvalue, VarValue.field, VarValue.vlen]
    obtain ⟨bs, hw, hcnt⟩ := hfields _ hmem
    exact nonneg_of_writes hlegal hw hcnt

/-! ## The message -/

omit h in
/-- Where fields end. -/
theorem encFields_ofs (fs : List Field) (p : List (List UInt8)) {ofs : ℕ}
    (hlt : ofs + total fs < 2^16) : (encFields fs p ofs).2 = ofs + total fs := by
  induction fs generalizing p ofs with
  | nil => rfl
  | cons f fs ih =>
    have htotal : total (f :: fs) = f.cnt + total fs := rfl
    have hu16 : u16 (ofs + f.cnt) = ofs + f.cnt := Nat.mod_eq_of_lt (by omega)
    show (encFields fs _ (u16 (ofs + f.cnt))).2 = _
    rw [hu16, ih _ (by omega), htotal, Nat.add_assoc]

omit h in
/-- The list is at the end of the message. -/
theorem respOctets_list (m_stat : MsgPstat) (outvb : List VarBind) :
    ∃ hdr, respOctets m_stat outvb = hdr ++ listOctets outvb := by
  unfold respOctets msgInner pduInner
  unfold tlv
  simp only [← List.append_assoc, ← List.cons_append]
  exact ⟨_, rfl⟩

section Message

variable (hnonneg : ∀ vb ∈ outvb, vb.Nonneg) (hfits : total (respFields m_stat outvb) < 2^16)

include hnonneg hfits

/-- The message is written into any pbufs of its length. -/
theorem respEnc_spec (c : Chain) (hlen : c.octets.length = (respLengths m_stat outvb).tot_len) :
    ∃ c' : Chain, respEnc m_stat outvb c.pbufs = (c'.pbufs, (respLengths m_stat outvb).tot_len) ∧
      c'.octets = respOctets m_stat outvb := by
  obtain ⟨-, -, htot⟩ := respLengths_eq h hnonneg hfits
  obtain ⟨c', henc, -, hoct⟩ :=
    encFields_spec (resp_emits h hnonneg hfits) c (show 0 + _ ≤ _ by omega)
  refine ⟨c', ?_, ?_⟩
  · rw [respEnc_eq, henc, htot, Nat.zero_add]
  · rw [hoct, Nat.zero_add, List.take_zero, List.nil_append, List.drop_eq_nil_of_le (by omega),
      List.append_nil]

/-- Where the header ends, the list starts. -/
theorem respHeaderEnc_drop (p : List (List UInt8)) :
    (respOctets m_stat outvb).drop (respHeaderEnc m_stat (respLengths m_stat outvb) p).2 =
      listOctets outvb := by
  obtain ⟨hdr, hsplit⟩ := respOctets_list m_stat outvb
  obtain ⟨-, -, hlist⟩ := list_fits h hnonneg hfits
  have htotal := (resp_emits h hnonneg hfits).total
  rw [hsplit, List.length_append] at htotal
  unfold respFields at htotal hfits
  rw [total_append] at htotal hfits
  have hofs : (respHeaderEnc m_stat (respLengths m_stat outvb) p).2 = hdr.length := by
    unfold respHeaderEnc
    rw [encFields_ofs _ _ (by omega)]
    omega
  rw [hofs, hsplit, List.drop_left]

end Message

/-! ## Reading it -/

omit h in
/-- The function reads the head of the list, and then the bindings. -/
theorem pduDec_eq {c : Chain} {ofs : ℕ} (hdrop : c.octets.drop ofs = listOctets outvb)
    (type : UInt8) (old : ℕ → ℤ) (fuel : ℕ) :
    ∃ s : DecVars, c.octets.drop s.ofs = outvb.flatMap VarBind.octets ∧
      s.vb_len = (outvb.flatMap VarBind.octets).length ∧ s.ofs + s.vb_len = c.octets.length ∧
      pduDecVarbindlist type old fuel c.pbufs ofs = decVarbinds old c.pbufs fuel s ⟨[], 0⟩ := by
  have hlen := tlv_length (SNMP_ASN1_UNIV ||| SNMP_ASN1_CONSTR ||| SNMP_ASN1_SEQ)
    (outvb.flatMap VarBind.octets)
  have htotal := congrArg List.length hdrop
  rw [List.length_drop] at htotal
  rw [← List.append_nil (listOctets outvb)] at hdrop
  obtain ⟨htype, hlength, hcontent, hofs, -⟩ := tlv_read hdrop
  rw [List.append_nil, Nat.add_assoc, hofs] at hcontent
  refine ⟨⟨SNMP_ASN1_UNIV ||| SNMP_ASN1_CONSTR ||| SNMP_ASN1_SEQ, _, _⟩, hcontent, rfl, ?_, ?_⟩
  · unfold listOctets at htotal
    dsimp only
    omega
  · unfold pduDecVarbindlist
    rw [hlength]
    dsimp only
    rw [htype, if_neg (not_not.mpr rfl), hofs]

section Decoded

variable (hfits : total (respFields m_stat outvb) < 2^16)

include hfits

/-- A response that can be sent agrees in both passes. -/
theorem twoPass_of_sendable (hsend : Sendable outvb) : TwoPass m_stat outvb := by
  have hnonneg := hsend.nonneg
  have hemits := resp_emits h hnonneg hfits
  obtain ⟨hlist, -, htotal⟩ := list_fits h hnonneg hfits
  obtain ⟨hpdu, hseq, htot⟩ := respLengths_eq h hnonneg hfits
  have hlistFits : (outvb.flatMap VarBind.octets).length < 2^16 := by
    have hlen := tlv_length (SNMP_ASN1_UNIV ||| SNMP_ASN1_CONSTR ||| SNMP_ASN1_SEQ)
      (outvb.flatMap VarBind.octets)
    unfold listOctets at htotal
    unfold respFields at hfits
    rw [total_append] at hfits
    omega
  refine ⟨hemits.counted, ?_, ?_, ?_, ?_, ?_, ?_, ?_⟩
  · intro vb hvb
    rw [VarBind.seqlen_eq (h vb hvb) (hnonneg vb hvb),
      (VarBind.inner_emits (h vb hvb) (hnonneg vb hvb)).total]
  · rw [(varbinds_emits h hnonneg).total]
    exact varbindsSum_eq h hnonneg hlistFits
  · rw [hpdu, ← total_append, (pdu_emits h hnonneg hfits).total]
  · rw [hseq, ← total_append, (msg_emits h hnonneg hfits).total]
  · rw [htot, hemits.total]
  · exact ⟨respOctets m_stat outvb, htot.symm, fun c hlen => respEnc_spec h hnonneg hfits c hlen⟩
  · intro c hlen type old fuel hfuel
    obtain ⟨c', henc, hoct⟩ := respEnc_spec h hnonneg hfits c hlen
    have hdrop := respHeaderEnc_drop h hnonneg hfits c.pbufs
    rw [← hoct] at hdrop
    obtain ⟨s, hs, hvb, hsum, hdec⟩ := pduDec_eq hdrop type old fuel
    have hfits' : c'.octets.length < 2^16 := c'.tot_len
    have hread := decVarbinds_spec old h hnonneg hsend.last hs hvb (by omega) hfuel ⟨[], 0⟩
    have hcounted : (VarbindRoot.mk [] 0).Counted := ⟨rfl, Nat.zero_le 256⟩
    have hroot : (VarbindRoot.mk [] 0).vbs.length + outvb.length ≤ 256 := by
      simpa using hsend.length_le
    have hfold := foldl_tailAdd hcounted hroot
    rw [henc]
    dsimp only
    rw [hdec, hread, hfold, ← hvb, hsum, hoct, ← htot]
    rfl

omit h in
/-- There are pbufs for the message. -/
theorem exists_chain (htwo : TwoPass m_stat outvb) :
    ∃ c : Chain, c.octets.length = (respLengths m_stat outvb).tot_len := by
  have hpos : total (respFields m_stat outvb) ≠ 0 := by
    unfold respFields respHeaderFields
    rw [total_append, total_append, total_headFields]
    omega
  have hne : ∀ p ∈ [List.replicate (total (respFields m_stat outvb)) (0 : UInt8)], p ≠ [] := by
    intro p hp hnil
    rw [List.mem_singleton.mp hp, List.replicate_eq_nil_iff] at hnil
    exact hpos hnil
  refine ⟨⟨_, hne, ?_⟩, ?_⟩
  · rwa [List.flatten_singleton, List.length_replicate]
  · unfold Chain.octets
    rw [List.flatten_singleton, List.length_replicate, htwo.tot_len]

/-- A response that agrees in both passes can be sent. -/
theorem sendable_of_twoPass (htwo : TwoPass m_stat outvb) : Sendable outvb := by
  have hnonneg := htwo.nonneg h
  obtain ⟨c, hlen⟩ := exists_chain hfits htwo
  obtain ⟨c', henc, hoct⟩ := respEnc_spec h hnonneg hfits c hlen
  have hdrop := respHeaderEnc_drop h hnonneg hfits c.pbufs
  rw [← hoct] at hdrop
  have hdecoded := htwo.decoded c hlen 0 (fun _ => 0) (outvb.length + 1) (Nat.lt_succ_self _)
  obtain ⟨s, hs, hvb, hsum, hdec⟩ := pduDec_eq hdrop 0 (fun _ => 0) (outvb.length + 1)
  have hfits' : c'.octets.length < 2^16 := c'.tot_len
  rw [henc] at hdecoded
  rw [hdec] at hdecoded
  refine ⟨hnonneg, ?_, ?_⟩
  · have hcounted : (VarbindRoot.mk [] 0).Counted := ⟨rfl, Nat.zero_le 256⟩
    exact (decVarbinds_counted _ _ _ hcounted hdecoded).2
  · intro vb hlast hvalue
    obtain ⟨init, rfl⟩ := List.getLast?_eq_some_iff.mp hlast
    have hend := decVarbinds_end (fun _ => 0) h hnonneg hvalue hs hvb (by omega) 1 ⟨[], 0⟩
    rw [List.length_append, List.length_singleton, Nat.add_assoc, hend] at hdecoded
    cases hdecoded

/-- The passes agree just for the lists that can be sent. -/
theorem two_pass : TwoPass m_stat outvb ↔ Sendable outvb :=
  ⟨sendable_of_twoPass h hfits, twoPass_of_sendable h hfits⟩

end Decoded

end TwoPass

/-- A request with the community `p`. -/
def exampleStat : MsgPstat := ⟨7, 0, 0, [0x70], by decide⟩

/-- The name 1.3.6.1.300 with the integer -129. -/
theorem two_pass_integer : total (respFields exampleStat [⟨[1, 3, 6, 1, 300], .INTEG (-129)⟩]) <
    2^16 ∧ TwoPass exampleStat [⟨[1, 3, 6, 1, 300], .INTEG (-129)⟩] := by
  have hlegal : ∀ vb ∈ [(⟨[1, 3, 6, 1, 300], .INTEG (-129)⟩ : VarBind)], vb.Legal := by
    intro vb hvb
    rw [List.mem_singleton.mp hvb]
    exact ⟨⟨.inl (by decide), by decide, by decide⟩, by decide, by decide⟩
  have hfits : total (respFields exampleStat [⟨[1, 3, 6, 1, 300], .INTEG (-129)⟩]) < 2^16 := by
    decide
  refine ⟨hfits, (two_pass hlegal hfits).mpr ⟨?_, by decide, by simp⟩⟩
  intro vb hvb
  rw [List.mem_singleton.mp hvb]
  exact ⟨by unfold NonnegOid; decide, by simp⟩

/-- The sub-identifier 4294967295 is read as -1, counted as one octet, and written as five. -/
theorem negative_sub_identifier : ¬ ∀ (m_stat : MsgPstat) (outvb : List VarBind),
    (∀ vb ∈ outvb, vb.Legal) → total (respFields m_stat outvb) < 2^16 → TwoPass m_stat outvb := by
  intro hall
  have hlegal : ∀ vb ∈ [(⟨[1, 3, -1], .NUL⟩ : VarBind)], vb.Legal := by
    intro vb hvb
    rw [List.mem_singleton.mp hvb]
    exact ⟨⟨.inl (by decide), by decide, by decide⟩, trivial⟩
  have htwo := hall exampleStat [⟨[1, 3, -1], .NUL⟩] hlegal (by decide)
  have hnonneg := (htwo.nonneg hlegal _ List.mem_cons_self).1 (-1) (by decide)
  exact absurd hnonneg (by decide)

end Lwip.Snmp
