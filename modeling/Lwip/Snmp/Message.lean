import Lwip.Snmp.Asn1

/-!
# Response messages

`msg_out.c` writes a response in two passes: the length fields are computed from the tail to the
head, and then the fields are written from the head to the tail. `msg_in.c` reads the list of
variable bindings of a message. Bindings are in memory as values here, and there is memory for those
that are read.
-/

namespace Lwip.Snmp

/-! ## Types -/

def SNMP_ASN1_UNIV : UInt8 := 0x00
def SNMP_ASN1_APPLIC : UInt8 := 0x40
def SNMP_ASN1_CONTXT : UInt8 := 0x80
def SNMP_ASN1_CONSTR : UInt8 := 0x20
def SNMP_ASN1_PRIMIT : UInt8 := 0x00

def SNMP_ASN1_INTEG : UInt8 := 2
def SNMP_ASN1_OC_STR : UInt8 := 4
def SNMP_ASN1_NUL : UInt8 := 5
def SNMP_ASN1_OBJ_ID : UInt8 := 6
def SNMP_ASN1_SEQ : UInt8 := 16

def SNMP_ASN1_IPADDR : UInt8 := 0
def SNMP_ASN1_COUNTER : UInt8 := 1
def SNMP_ASN1_GAUGE : UInt8 := 2
def SNMP_ASN1_TIMETICKS : UInt8 := 3
def SNMP_ASN1_OPAQUE : UInt8 := 4

def SNMP_ASN1_PDU_GET_RESP : UInt8 := 2

/-- The value of a variable binding, `value_type`, `value_len` and `value` of a `struct
snmp_varbind`. As `value_len` is an `u8_t`, a string has at most 255 octets. -/
inductive VarValue where
  | INTEG (value : ℤ)
  | COUNTER (value : ℕ)
  | GAUGE (value : ℕ)
  | TIMETICKS (value : ℕ)
  | OC_STR (value : List UInt8)
  | OPAQUE (value : List UInt8)
  | IPADDR (value : List UInt8)
  | NUL
  | OBJ_ID (value : List ℤ)
  deriving DecidableEq, Repr

/-- `struct snmp_varbind`. -/
structure VarBind where
  ident : List ℤ
  value : VarValue
  deriving DecidableEq, Repr

def VarValue.value_type : VarValue → UInt8
  | INTEG _ => SNMP_ASN1_UNIV ||| SNMP_ASN1_PRIMIT ||| SNMP_ASN1_INTEG
  | COUNTER _ => SNMP_ASN1_APPLIC ||| SNMP_ASN1_PRIMIT ||| SNMP_ASN1_COUNTER
  | GAUGE _ => SNMP_ASN1_APPLIC ||| SNMP_ASN1_PRIMIT ||| SNMP_ASN1_GAUGE
  | TIMETICKS _ => SNMP_ASN1_APPLIC ||| SNMP_ASN1_PRIMIT ||| SNMP_ASN1_TIMETICKS
  | OC_STR _ => SNMP_ASN1_UNIV ||| SNMP_ASN1_PRIMIT ||| SNMP_ASN1_OC_STR
  | OPAQUE _ => SNMP_ASN1_APPLIC ||| SNMP_ASN1_PRIMIT ||| SNMP_ASN1_OPAQUE
  | IPADDR _ => SNMP_ASN1_APPLIC ||| SNMP_ASN1_PRIMIT ||| SNMP_ASN1_IPADDR
  | NUL => SNMP_ASN1_UNIV ||| SNMP_ASN1_PRIMIT ||| SNMP_ASN1_NUL
  | OBJ_ID _ => SNMP_ASN1_UNIV ||| SNMP_ASN1_PRIMIT ||| SNMP_ASN1_OBJ_ID

/-! ## The first pass -/

/-- The length fields of a binding. -/
structure VarLengths where
  vlen : ℕ
  vlenlen : ℕ
  olen : ℕ
  olenlen : ℕ
  seqlen : ℕ
  seqlenlen : ℕ
  deriving DecidableEq, Repr

/-- `vb->vlen`. -/
def VarValue.vlen : VarValue → ℕ
  | INTEG value => encS32tCnt value
  | COUNTER value | GAUGE value | TIMETICKS value => encU32tCnt value
  | OC_STR value | IPADDR value | OPAQUE value => value.length
  | NUL => 0
  | OBJ_ID value => encOidCnt value

/-- What `snmp_varbind_list_sum` computes for a binding. -/
def VarBind.lengths (vb : VarBind) : VarLengths :=
  -- encoding length of value length field
  let vlen := vb.value.vlen
  let vlenlen := encLengthCnt vlen
  let olen := encOidCnt vb.ident
  let olenlen := encLengthCnt olen
  let seqlen := u16 (1 + vlenlen + vlen)
  let seqlen := u16 (seqlen + (1 + olenlen + olen))
  { vlen, vlenlen, olen, olenlen, seqlen, seqlenlen := encLengthCnt seqlen }

/-- The lengths of `struct snmp_varbind_root`, and the result of `snmp_varbind_list_sum`. -/
structure RootLengths where
  seqlen : ℕ
  seqlenlen : ℕ
  tot_len : ℕ
  deriving DecidableEq, Repr

/-- The loop of `snmp_varbind_list_sum` from the tail to the head. -/
def varbindsSum (root : List VarBind) : ℕ :=
  root.foldr (fun vb tot_len => u16 (tot_len + (1 + vb.lengths.seqlenlen + vb.lengths.seqlen))) 0

/-- `snmp_varbind_list_sum`. -/
def varbindListSum (root : List VarBind) : RootLengths :=
  -- varbind-list seq
  let seqlen := varbindsSum root
  let seqlenlen := encLengthCnt seqlen
  { seqlen, seqlenlen, tot_len := u16 (seqlen + (1 + seqlenlen)) }

/-- `snmp_version`. -/
def snmp_version : ℤ := 0

/-- `SNMP_COMMUNITY_STR_LEN`. -/
def SNMP_COMMUNITY_STR_LEN : ℕ := 64

/-- The state of a request, `struct snmp_msg_pstat`; `com_strlen` is the length of `community`. -/
structure MsgPstat where
  rid : ℤ
  error_status : ℤ
  error_index : ℤ
  community : List UInt8
  com_strlen : community.length ≤ SNMP_COMMUNITY_STR_LEN

/-- `struct snmp_resp_header_lengths`, and the result of `snmp_resp_header_sum`. -/
structure RespHeaderLengths where
  erridxlen : ℕ
  erridxlenlen : ℕ
  errstatlen : ℕ
  errstatlenlen : ℕ
  ridlen : ℕ
  ridlenlen : ℕ
  pdulen : ℕ
  pdulenlen : ℕ
  comlen : ℕ
  comlenlen : ℕ
  verlen : ℕ
  verlenlen : ℕ
  seqlen : ℕ
  seqlenlen : ℕ
  tot_len : ℕ
  deriving DecidableEq, Repr

/-- `snmp_resp_header_sum`. -/
def respHeaderSum (m_stat : MsgPstat) (vb_len : ℕ) : RespHeaderLengths :=
  let tot_len := vb_len
  let erridxlen := encS32tCnt m_stat.error_index
  let erridxlenlen := encLengthCnt erridxlen
  let tot_len := u16 (tot_len + (1 + erridxlenlen + erridxlen))
  let errstatlen := encS32tCnt m_stat.error_status
  let errstatlenlen := encLengthCnt errstatlen
  let tot_len := u16 (tot_len + (1 + errstatlenlen + errstatlen))
  let ridlen := encS32tCnt m_stat.rid
  let ridlenlen := encLengthCnt ridlen
  let tot_len := u16 (tot_len + (1 + ridlenlen + ridlen))
  let pdulen := tot_len
  let pdulenlen := encLengthCnt pdulen
  let tot_len := u16 (tot_len + (1 + pdulenlen))
  let comlen := m_stat.community.length
  let comlenlen := encLengthCnt comlen
  let tot_len := u16 (tot_len + (1 + comlenlen + comlen))
  let verlen := encS32tCnt snmp_version
  let verlenlen := encLengthCnt verlen
  let tot_len := u16 (tot_len + (1 + verlen + verlenlen))
  let seqlen := tot_len
  let seqlenlen := encLengthCnt seqlen
  { erridxlen, erridxlenlen, errstatlen, errstatlenlen, ridlen, ridlenlen,
    pdulen, pdulenlen, comlen, comlenlen, verlen, verlenlen, seqlen, seqlenlen,
    tot_len := u16 (tot_len + (1 + seqlenlen)) }

/-! ## The second pass -/

/-- `snmp_asn1_enc_…(p, ofs, …); ofs += cnt`. -/
structure Field where
  enc : Walk Unit
  cnt : ℕ

/-- The fields are written one after the other; whether this succeeds is not looked at. -/
def encFields : List Field → (p : List (List UInt8)) → (ofs : ℕ) → List (List UInt8) × ℕ
  | [], p, ofs => (p, ofs)
  | f :: fs, p, ofs => encFields fs (walk f.enc p ofs).2 (u16 (ofs + f.cnt))

/-- A type and a length. -/
def headFields (type : UInt8) (len lenlen : ℕ) :
    List Field := [⟨encType type, 1⟩, ⟨encLength len, lenlen⟩]

/-- The field of a value. Nothing is written for `SNMP_ASN1_NUL`. -/
def VarValue.field (value : VarValue) (vlen : ℕ) : Field :=
  match value with
  | INTEG value => ⟨encS32t vlen value, vlen⟩
  | COUNTER value | GAUGE value | TIMETICKS value => ⟨encU32t vlen value, vlen⟩
  | OC_STR value | IPADDR value | OPAQUE value => ⟨encRaw value, vlen⟩
  | NUL => ⟨pure (), vlen⟩
  | OBJ_ID value => ⟨encOid value, vlen⟩

/-- The fields inside a binding. -/
def VarBind.content (vb : VarBind) : List Field :=
  headFields (SNMP_ASN1_UNIV ||| SNMP_ASN1_PRIMIT ||| SNMP_ASN1_OBJ_ID) vb.lengths.olen
      vb.lengths.olenlen ++
    [⟨encOid vb.ident, vb.lengths.olen⟩] ++
    headFields vb.value.value_type vb.lengths.vlen vb.lengths.vlenlen ++
    [vb.value.field vb.lengths.vlen]

/-- The fields of a binding. -/
def VarBind.fields (vb : VarBind) : List Field :=
  headFields (SNMP_ASN1_UNIV ||| SNMP_ASN1_CONSTR ||| SNMP_ASN1_SEQ) vb.lengths.seqlen
    vb.lengths.seqlenlen ++ vb.content

/-- The fields that `snmp_varbind_list_enc` writes. -/
def varbindListFields (root : List VarBind) : List Field :=
  headFields (SNMP_ASN1_UNIV ||| SNMP_ASN1_CONSTR ||| SNMP_ASN1_SEQ) (varbindListSum root).seqlen
    (varbindListSum root).seqlenlen ++ root.flatMap VarBind.fields

/-- `snmp_varbind_list_enc`. -/
def varbindListEnc (root : List VarBind) (p : List (List UInt8)) (ofs : ℕ) :
    List (List UInt8) × ℕ :=
  encFields (varbindListFields root) p ofs

/-- An integer of the header. -/
def integFields (value : ℤ) (len lenlen : ℕ) : List Field :=
  headFields (SNMP_ASN1_UNIV ||| SNMP_ASN1_PRIMIT ||| SNMP_ASN1_INTEG) len lenlen ++
    [⟨encS32t len value, len⟩]

/-- The fields of the header inside the response PDU. -/
def respPduFields (m_stat : MsgPstat) (rhl : RespHeaderLengths) : List Field :=
  integFields m_stat.rid rhl.ridlen rhl.ridlenlen ++
    integFields m_stat.error_status rhl.errstatlen rhl.errstatlenlen ++
    integFields m_stat.error_index rhl.erridxlen rhl.erridxlenlen

/-- The fields of the header inside the message. -/
def respMsgFields (m_stat : MsgPstat) (rhl : RespHeaderLengths) : List Field :=
  integFields snmp_version rhl.verlen rhl.verlenlen ++
    headFields (SNMP_ASN1_UNIV ||| SNMP_ASN1_PRIMIT ||| SNMP_ASN1_OC_STR) rhl.comlen
      rhl.comlenlen ++
    [⟨encRaw m_stat.community, rhl.comlen⟩] ++
    headFields (SNMP_ASN1_CONTXT ||| SNMP_ASN1_CONSTR ||| SNMP_ASN1_PDU_GET_RESP) rhl.pdulen
      rhl.pdulenlen ++
    respPduFields m_stat rhl

/-- The fields that `snmp_resp_header_enc` writes. -/
def respHeaderFields (m_stat : MsgPstat) (rhl : RespHeaderLengths) : List Field :=
  headFields (SNMP_ASN1_UNIV ||| SNMP_ASN1_CONSTR ||| SNMP_ASN1_SEQ) rhl.seqlen rhl.seqlenlen ++
    respMsgFields m_stat rhl

/-- `snmp_resp_header_enc`. -/
def respHeaderEnc (m_stat : MsgPstat) (rhl : RespHeaderLengths) (p : List (List UInt8)) :
    List (List UInt8) × ℕ :=
  encFields (respHeaderFields m_stat rhl) p 0

/-! ## Both passes -/

/-- The lengths that `snmp_send_response` computes in the first pass. -/
def respLengths (m_stat : MsgPstat) (outvb : List VarBind) : RespHeaderLengths :=
  respHeaderSum m_stat (varbindListSum outvb).tot_len

/-- The second pass of `snmp_send_response`, over pbufs of `tot_len` octets. -/
def respEnc (m_stat : MsgPstat) (outvb : List VarBind) (p : List (List UInt8)) :
    List (List UInt8) × ℕ :=
  let r := respHeaderEnc m_stat (respLengths m_stat outvb) p
  varbindListEnc outvb r.1 r.2

/-! ## Reading a list of bindings -/

/-- `snmp_asn1_dec_type`, which leaves `type` as it is where it fails. -/
def readType (p : List (List UInt8)) (ofs : ℕ) (type : UInt8) : UInt8 :=
  match (walk decType p ofs).1 with
  | .ok b => b
  | .error _ => type

/-- The value of a binding. The buffer for a string is as long as an `u8_t` tells. -/
def decVarValue (old : ℕ → ℤ) (p : List (List UInt8)) (type : UInt8) (ofs len : ℕ) :
    Except Stop VarValue :=
  if type = SNMP_ASN1_UNIV ||| SNMP_ASN1_PRIMIT ||| SNMP_ASN1_INTEG then
    .INTEG <$> (walk (decS32t len) p ofs).1
  else if type = SNMP_ASN1_APPLIC ||| SNMP_ASN1_PRIMIT ||| SNMP_ASN1_COUNTER then
    .COUNTER <$> (walk (decU32t len) p ofs).1
  else if type = SNMP_ASN1_APPLIC ||| SNMP_ASN1_PRIMIT ||| SNMP_ASN1_GAUGE then
    .GAUGE <$> (walk (decU32t len) p ofs).1
  else if type = SNMP_ASN1_APPLIC ||| SNMP_ASN1_PRIMIT ||| SNMP_ASN1_TIMETICKS then
    .TIMETICKS <$> (walk (decU32t len) p ofs).1
  else if type = SNMP_ASN1_UNIV ||| SNMP_ASN1_PRIMIT ||| SNMP_ASN1_OC_STR then
    .OC_STR <$> decRaw p ofs len (u8 len)
  else if type = SNMP_ASN1_APPLIC ||| SNMP_ASN1_PRIMIT ||| SNMP_ASN1_OPAQUE then
    .OPAQUE <$> decRaw p ofs len (u8 len)
  else if type = SNMP_ASN1_UNIV ||| SNMP_ASN1_PRIMIT ||| SNMP_ASN1_NUL then .ok .NUL
  else if type = SNMP_ASN1_UNIV ||| SNMP_ASN1_PRIMIT ||| SNMP_ASN1_OBJ_ID then
    .OBJ_ID <$> (walk (decOid old len) p ofs).1
  else if type = SNMP_ASN1_APPLIC ||| SNMP_ASN1_PRIMIT ||| SNMP_ASN1_IPADDR then
    -- must be exactly 4 octets!
    if len = 4 then .IPADDR <$> decRaw p ofs len 4 else .error .ARG
  else .error .ARG

/-- `struct snmp_varbind_root`, with a count that is an `u8_t`. -/
structure VarbindRoot where
  vbs : List VarBind
  count : ℕ
  deriving DecidableEq, Repr

/-- `snmp_varbind_tail_add`. -/
def VarbindRoot.tailAdd (root : VarbindRoot) (vb : VarBind) : VarbindRoot :=
  { vbs := if root.count = 0 then [vb] else root.vbs ++ [vb], count := u8 (root.count + 1) }

/-- The local variables of `snmp_pdu_dec_varbindlist`. -/
structure DecVars where
  type : UInt8
  ofs : ℕ
  vb_len : ℕ
  deriving DecidableEq, Repr

/-- A round of the loop, without adding the binding to the list. -/
def decVarbind (old : ℕ → ℤ) (p : List (List UInt8)) (s : DecVars) :
    Except Stop (VarBind × DecVars) := do
  let type := readType p s.ofs s.type
  let (len_octets, len) ← (walk decLength p (u16 (s.ofs + 1))).1
  if type ≠ SNMP_ASN1_UNIV ||| SNMP_ASN1_CONSTR ||| SNMP_ASN1_SEQ ∨ len = 0 ∨
    len > s.vb_len then .error .ARG
  else
    let ofs := u16 (s.ofs + (1 + len_octets))
    let vb_len := u16sub s.vb_len (1 + len_octets)
    let type := readType p ofs type
    let (len_octets, len) ← (walk decLength p (u16 (ofs + 1))).1
    if type ≠ SNMP_ASN1_UNIV ||| SNMP_ASN1_PRIMIT ||| SNMP_ASN1_OBJ_ID then .error .ARG
    else
      let oid ← (walk (decOid old len) p (u16 (ofs + 1 + len_octets))).1
      let ofs := u16 (ofs + (1 + len_octets + len))
      let vb_len := u16sub vb_len (1 + len_octets + len)
      let type := readType p ofs type
      let (len_octets, len) ← (walk decLength p (u16 (ofs + 1))).1
      let value ← decVarValue old p type (u16 (ofs + 1 + len_octets)) len
      .ok (⟨oid, value⟩, ⟨type, u16 (ofs + (1 + len_octets + len)),
        u16sub vb_len (1 + len_octets + len)⟩)

/-- `while (vb_len > 0)`. A message can make it go on for ever, so that the rounds are bounded
here. -/
def decVarbinds (old : ℕ → ℤ) (p : List (List UInt8)) :
    (fuel : ℕ) → DecVars → VarbindRoot → Option (Except Stop (ℕ × VarbindRoot))
  | 0, _, _ => none
  | fuel + 1, s, invb =>
    if s.vb_len > 0 then
      match decVarbind old p s with
      | .error e => some (.error e)
      | .ok (vb, s) => decVarbinds old p fuel s (invb.tailAdd vb)
    else some (.ok (s.ofs, invb))

/-- `snmp_pdu_dec_varbindlist`: `ofs_ret` and `invb`, where `type` and `old` are on the stack
before. -/
def pduDecVarbindlist (type : UInt8) (old : ℕ → ℤ) (fuel : ℕ) (p : List (List UInt8)) (ofs : ℕ) :
    Option (Except Stop (ℕ × VarbindRoot)) :=
  let type := readType p ofs type
  match (walk decLength p (u16 (ofs + 1))).1 with
  | .error e => some (.error e)
  | .ok (len_octets, vb_len) =>
    if type ≠ SNMP_ASN1_UNIV ||| SNMP_ASN1_CONSTR ||| SNMP_ASN1_SEQ then some (.error .ARG)
    else decVarbinds old p fuel ⟨type, u16 (ofs + (1 + len_octets)), vb_len⟩ ⟨[], 0⟩

end Lwip.Snmp
