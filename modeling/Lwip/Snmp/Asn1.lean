import Lwip.Snmp.Walk

/-!
# ASN.1

`asn1_enc.c` and `asn1_dec.c`, which write and read the fields of a message by walks over its pbufs.
The `s32_t` of the source are integers here, with `s32` where an operation can overflow; a shift to
the right of a negative one rounds down.
-/

namespace Lwip.Snmp

/-- `x` assigned to an `s32_t`. -/
def s32 (x : ℤ) : ℤ := Int.bmod x (2^32)

/-- `(u8_t)x`. -/
def octet (x : ℤ) : UInt8 := UInt8.ofNat (x % 2^8).toNat

/-! ## `asn1_enc.c` -/

/-- `snmp_asn1_enc_length_cnt`. -/
def encLengthCnt (length : ℕ) : ℕ := if length < 0x80 then 1 else if length < 0x100 then 2 else 3

/-- `snmp_asn1_enc_u32t_cnt`. -/
def encU32tCnt (value : ℕ) : ℕ :=
  if value < 0x80 then 1
  else if value < 0x8000 then 2
  else if value < 0x800000 then 3
  else if value < 0x80000000 then 4
  else 5

/-- `snmp_asn1_enc_s32t_cnt`; `~value` is `-value - 1`. -/
def encS32tCnt (value : ℤ) : ℕ :=
  let value := if value < 0 then -value - 1 else value
  if value < 0x80 then 1 else if value < 0x8000 then 2 else if value < 0x800000 then 3 else 4

/-- `while(sub_id > 0)`: each round shifts seven bits out, so that five rounds are enough. -/
def encOidGroups : (fuel : ℕ) → (sub_id : ℤ) → ℕ
  | 0, _ => 0
  | fuel + 1, sub_id => if sub_id > 0 then encOidGroups fuel (sub_id / 2^7) + 1 else 0

/-- The count of a sub-identifier. -/
def subIdCnt (sub_id : ℤ) : ℕ := encOidGroups 5 (sub_id / 2^7) + 1

/-- `snmp_asn1_enc_oid_cnt`, with a count that is a `u8_t`. -/
def encOidCnt : (ident : List ℤ) → ℕ
  | _ :: _ :: ident => u8 (1 + (ident.map subIdCnt).sum)
  | ident => u8 (ident.map subIdCnt).sum

/-- `snmp_asn1_enc_type`. -/
def encType (type : UInt8) : Walk Unit := put type

/-- `snmp_asn1_enc_length`. -/
def encLength (length : ℕ) : Walk Unit :=
  if length < 0x80 then put (octet length)
  else if length < 0x100 then do
    put 0x81
    step
    put (octet length)
  else do
    put 0x82
    step
    put (octet (length / 2^8 : ℤ))
    step
    put (octet length)

/-- The octets of a value, the most significant one first. -/
def encValue (value : ℤ) : (octets_needed : ℕ) → Walk Unit
  | octets_needed + 2 => do
    put (octet (value / 2^(8 * (octets_needed + 1))))
    step
    encValue value (octets_needed + 1)
  | _ => put (octet value)

/-- `snmp_asn1_enc_u32t`. -/
def encU32t (octets_needed : ℕ) (value : ℕ) : Walk Unit :=
  if octets_needed = 5 then do
    -- not enough bits in 'value' add leading 0x00
    put 0x00
    step
    encValue value 4
  else encValue value octets_needed

/-- `snmp_asn1_enc_s32t`. -/
def encS32t (octets_needed : ℕ) (value : ℤ) : Walk Unit := encValue value octets_needed

/-- The octets of a sub-identifier but for the last one; `shift` is seven times the number of rounds
left. -/
def encSubId (sub_id : ℤ) : (rounds : ℕ) → (tail : Bool) → Walk Unit
  | 0, _ => pure ()
  | rounds + 1, tail => do
    let code := octet (sub_id / 2^(7 * (rounds + 1)))
    if code ≠ 0 ∨ tail = true then do
      put (code ||| 0x80)
      step
      encSubId sub_id rounds true
    else encSubId sub_id rounds tail

/-- The sub-identifiers behind the prefix. -/
def encSubIds : (ident : List ℤ) → Walk Unit
  | [] => pure ()
  | sub_id :: ident => do
    encSubId sub_id 4 false
    put (octet sub_id &&& 0x7f)
    if ident ≠ [] then step
    encSubIds ident

/-- `snmp_asn1_enc_oid`. -/
def encOid : (ident : List ℤ) → Walk Unit
  | a :: b :: ident => do
    put (if a = 1 ∧ b = 3 then 0x2b else octet (a * 40 + b))
    step
    encSubIds ident
  | _ => stop .ARG

/-- `snmp_asn1_enc_raw`. -/
def encRaw : (raw : List UInt8) → Walk Unit
  | [] => pure ()
  | [b] => put b
  | b :: b' :: raw => do
    put b
    step
    encRaw (b' :: raw)

/-! ## `asn1_dec.c` -/

/-- `snmp_asn1_dec_type`. -/
def decType : Walk UInt8 := take

/-- The loop for the indefinite length, which looks for two zero octets. Each round reads an octet
of the message, so that `2^16` rounds are enough. -/
def decIndefinite : (fuel zeros length : ℕ) → Walk ℕ
  | 0, _, _ => stop .ARG
  | fuel + 1, zeros, length => do
    step
    let b ← take
    let zeros := if b = 0 then zeros + 1 else 0
    if zeros = 2 then pure (u16 (length + 1)) else decIndefinite fuel zeros (u16 (length + 1))

/-- `snmp_asn1_dec_length`: `octets_used` and `length`. -/
def decLength : Walk (ℕ × ℕ) := do
  let b ← take
  if b < 0x80 then pure (1, b.toNat)
  else if b = 0x80 then do
    let length ← decIndefinite (2^16) 0 0
    pure (1, length)
  else if b = 0x81 then do
    step
    let b ← take
    pure (2, b.toNat)
  else if b = 0x82 then do
    step
    let hi ← take
    step
    let lo ← take
    pure (3, hi.toNat <<< 8 ||| lo.toNat)
  else stop .ARG

/-- The loop of `snmp_asn1_dec_u32t`. -/
def decOctets : (len value : ℕ) → Walk ℕ
  | len + 2, value => do
    let b ← take
    step
    decOctets (len + 1) ((value ||| b.toNat) <<< 8 % 2^32)
  | _, value => do
    let b ← take
    pure (value ||| b.toNat)

/-- `snmp_asn1_dec_u32t`. -/
def decU32t (len : ℕ) : Walk ℕ :=
  if 0 < len ∧ len < 6 then do
    let b ← take
    if b &&& 0x80 ≠ 0 then stop .ARG
    else if 1 < len ∧ b = 0 then do
      -- skip leading "sign byte" octet 0x00
      step
      decOctets (len - 1) 0
    else decOctets len 0
  else stop .ARG

/-- `*lsb_ptr &= b`, where `lsb_ptr` is the least significant octet of the value. -/
def andLsb (value : ℤ) (b : UInt8) : ℤ := value - value % 2^8 + ((octet value &&& b).toNat : ℤ)

/-- `*lsb_ptr |= b`. -/
def orLsb (value : ℤ) (b : UInt8) : ℤ := value - value % 2^8 + ((octet value ||| b).toNat : ℤ)

/-- The loop of `snmp_asn1_dec_s32t`. -/
def decSigned (sign : Bool) : (len : ℕ) → (value : ℤ) → Walk ℤ
  | len + 2, value => do
    let b ← take
    let value := if sign then orLsb (s32 (andLsb value b * 2^8)) 255 else s32 (orLsb value b * 2^8)
    step
    decSigned sign (len + 1) value
  | _, value => do
    let b ← take
    pure (if sign then andLsb value b else orLsb value b)

/-- `snmp_asn1_dec_s32t`. -/
def decS32t (len : ℕ) : Walk ℤ :=
  if 0 < len ∧ len < 5 then do
    let b ← take
    if b &&& 0x80 ≠ 0 then decSigned true len (-1) else decSigned false len 0
  else stop .ARG

/-- `LWIP_SNMP_OBJ_ID_LEN`. -/
def LWIP_SNMP_OBJ_ID_LEN : ℕ := 32

/-- The first two elements, by the first octet. -/
def decPrefix (b : UInt8) : List ℤ :=
  if b = 0x2b then [1, 3]
  else if b < 40 then [0, b.toNat]
  else if b < 80 then [1, b.toNat - 40]
  else [2, b.toNat - 80]

/-- The octets of a sub-identifier that another one follows: `sub_id`, and `len` after them. -/
def decSubId : (len : ℕ) → (sub_id : ℤ) → Walk (ℤ × ℕ)
  | len + 2, sub_id => do
    let b ← take
    if b &&& 0x80 ≠ 0 then do
      step
      decSubId (len + 1) (s32 (sub_id * 2^7 + (b &&& 0x7f).toNat))
    else pure (sub_id, len + 2)
  | len, sub_id => pure (sub_id, len)

/-- The sub-identifier that starts with the octet `b`, and `len` after it. One that is incomplete
keeps what was in the array. -/
def decElement (old : ℤ) (b : UInt8) (len : ℕ) : Walk (ℤ × ℕ) :=
  -- sub-identifier uses multiple octets
  if b &&& 0x80 ≠ 0 then do
    let (sub_id, len) ← decSubId len 0
    let b ← take
    -- last octet sub-identifier
    if b &&& 0x80 = 0 then pure (s32 (sub_id * 2^7 + b.toNat), len - 1)
    else pure (old, len)
  else pure (b.toNat, len - 1)

/-- The sub-identifiers behind the prefix, with `room` elements of the array left. -/
def decSubIds (old : ℕ → ℤ) : (room len : ℕ) → (id : List ℤ) → Walk (ℕ × List ℤ)
  | 0, len, id => pure (len, id)
  | _ + 1, 0, id => pure (0, id)
  | room + 1, len + 1, id => do
    let b ← take
    let (sub_id, len) ← decElement (old id.length) b (len + 1)
    if 0 < len then step
    decSubIds old room len (id ++ [sub_id])

/-- `snmp_asn1_dec_oid`, where `old` is in the array before. -/
def decOid (old : ℕ → ℤ) (len : ℕ) : Walk (List ℤ) :=
  -- accepting zero length identifiers e.g. for getnext operation
  if len = 0 then pure []
  else do
    let b ← take
    let len := len - 1
    if 0 < len then step
    let (len, id) ← decSubIds old (LWIP_SNMP_OBJ_ID_LEN - 2) len (decPrefix b)
    if len = 0 then pure id else stop .ARG

/-- The octets of `snmp_asn1_dec_raw`. -/
def decRawOctets : (len : ℕ) → Walk (List UInt8)
  | len + 2 => do
    let b ← take
    step
    let raw ← decRawOctets (len + 1)
    pure (b :: raw)
  | _ => do
    let b ← take
    pure [b]

/-- `snmp_asn1_dec_raw`; an empty string is not looked for. -/
def decRaw (p : List (List UInt8)) (ofs len raw_len : ℕ) : Except Stop (List UInt8) :=
  if 0 < len then (walk (if raw_len ≥ len then decRawOctets len else stop .ARG) p ofs).1
  else .ok []

end Lwip.Snmp
