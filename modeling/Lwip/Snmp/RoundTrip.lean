import Lwip.Snmp.Reading

/-!
# Round trips of ASN.1 fields

A value is written at an offset of a chain with room for it, and read at the same offset with its
count as the length. This gives the value back, wherever the pbuf boundaries are, with two
exceptions for object identifiers. `snmp_asn1_enc_oid` moves on behind the first two elements also
where there is no third one, and so fails on the last octet of a chain. Further, it writes the first
two elements into one octet, which is too small for 2.176 and above.
-/

namespace Lwip.Snmp

/-- The values of fields. -/
inductive Value where
  | length (length : ℕ)
  | u32t (value : ℕ)
  | s32t (value : ℤ)
  | oid (ident : List ℤ)
  | raw (raw : List UInt8)
  deriving DecidableEq, Repr

/-- The count of octets. -/
def Value.cnt : Value → ℕ
  | length n => encLengthCnt n
  | u32t value => encU32tCnt value
  | s32t value => encS32tCnt value
  | oid ident => encOidCnt ident
  | raw bs => bs.length

/-- The function that writes a value. -/
def Value.enc : Value → Walk Unit
  | length n => encLength n
  | u32t value => encU32t (encU32tCnt value) value
  | s32t value => encS32t (encS32tCnt value) value
  | oid ident => encOid ident
  | raw bs => encRaw bs

/-- The function that reads such a value gives it back, where its length is the count. An identifier
is read into an array with any contents, a string into any buffer that is large enough. -/
def Value.Decoded (p : List (List UInt8)) (ofs : ℕ) : Value → Prop
  | length n => (walk decLength p ofs).1 = .ok (encLengthCnt n, n)
  | u32t value => (walk (decU32t (encU32tCnt value)) p ofs).1 = .ok value
  | s32t value => (walk (decS32t (encS32tCnt value)) p ofs).1 = .ok value
  | oid ident => ∀ old, (walk (decOid old (encOidCnt ident)) p ofs).1 = .ok ident
  | raw bs => ∀ raw_len ≥ bs.length, decRaw p ofs bs.length raw_len = .ok bs

/-- The first two elements of an object identifier. -/
def LegalPair (a b : ℤ) : Prop := 0 ≤ a ∧ a ≤ 1 ∧ 0 ≤ b ∧ b < 40 ∨ a = 2 ∧ 0 ≤ b

/-- Values for which there are types in the source. -/
def Value.Legal : Value → Prop
  | length n => n < 2^16
  | u32t value => value < 2^32
  | s32t value => -2^31 ≤ value ∧ value < 2^31
  | oid (a :: b :: ident) =>
    LegalPair a b ∧ ident.length + 2 ≤ 32 ∧ ∀ id ∈ a :: b :: ident, 0 ≤ id ∧ id < 2^31
  | oid _ => False
  | raw bs => 1 ≤ bs.length ∧ bs.length ≤ 255

/-- Writing succeeds, changes the counted octets only, and reading gives the value back. -/
def RoundTrip (c : Chain) (ofs : ℕ) (v : Value) : Prop :=
  ∃ c' : Chain, walk v.enc c.pbufs ofs = (.ok (), c'.pbufs) ∧
    c'.pbufs.map List.length = c.pbufs.map List.length ∧
    c'.octets.take ofs = c.octets.take ofs ∧
    c'.octets.drop (ofs + v.cnt) = c.octets.drop (ofs + v.cnt) ∧
    v.Decoded c'.pbufs ofs

/-- An identifier of two elements is not the last octet, and the first two elements fit into an
octet. -/
def Value.Fits (total ofs : ℕ) : Value → Prop
  | oid (a :: b :: ident) => (ident = [] → ofs + 1 < total) ∧ (a = 2 → b ≤ 175)
  | _ => True

/-! ## What is written is read -/

/-- A walk by what it does at the octet at `ofs`. -/
theorem walk_fst {α : Type} {c : Chain} {ofs : ℕ} {bs tail : List UInt8} {m : Walk α}
    {r : Except Stop α} (hne : bs ≠ []) (hdrop : c.octets.drop ofs = bs ++ tail)
    (hm : ∀ x : Ptr, x.Valid → x.rest = bs ++ tail → (m x).1 = r) : (walk m c.pbufs ofs).1 = r := by
  have hlt : ofs < c.octets.length := by
    by_contra hge
    rw [List.drop_eq_nil_of_le (Nat.le_of_not_lt hge)] at hdrop
    exact hne (List.append_eq_nil_iff.mp hdrop.symm).1
  obtain ⟨x, hv, -, -, hrest, hwalk⟩ := walk_eq c hlt
  rw [hwalk]
  exact hm x hv (hrest.trans hdrop)

/-- The octets of a value. -/
def Value.octets : Value → List UInt8
  | length n => lengthOctets n
  | u32t value => u32tOctets (encU32tCnt value) value
  | s32t value => valueOctets value (encS32tCnt value)
  | oid ident => oidOctets ident
  | raw bs => bs

section Value

variable {v : Value} {c : Chain} {ofs : ℕ}

/-- The count of a value is right. -/
theorem Value.octets_length (h : v.Legal) : v.octets.length = v.cnt := by
  match v with
  | length n => exact lengthOctets_length n
  | u32t value => exact u32tOctets_length value
  | s32t value => exact encS32tOctets_length value
  | raw bs => rfl
  | oid [] => exact h.elim
  | oid [_] => exact h.elim
  | oid (a :: b :: ident) =>
    obtain ⟨-, hlen, hids⟩ := h
    have h2 : 2 ≤ (a :: b :: ident).length := Nat.le_add_left 2 _
    exact oidOctets_length h2 hlen hids

/-- A value has octets. -/
theorem Value.octets_ne_nil (h : v.Legal) : v.octets ≠ [] := by
  match v with
  | length n =>
    show lengthOctets n ≠ []
    unfold lengthOctets
    split
    · exact List.cons_ne_nil _ _
    split <;> exact List.cons_ne_nil _ _
  | u32t value =>
    show u32tOctets (encU32tCnt value) value ≠ []
    rw [u32tOctets_eq h]
    exact valueOctets_ne_nil value _
  | s32t value => exact valueOctets_ne_nil value _
  | raw bs => exact List.length_pos_iff.mp h.1
  | oid [] => exact h.elim
  | oid [_] => exact h.elim
  | oid (a :: b :: ident) => exact List.cons_ne_nil _ _

/-- A value is read from its octets. -/
theorem Value.decoded (h : v.Legal)
    (hfits : ∀ a b ident, v = oid (a :: b :: ident) → a = 2 → b ≤ 175)
    {tail : List UInt8} (hdrop : c.octets.drop ofs = v.octets ++ tail) : v.Decoded c.pbufs ofs := by
  have hne := Value.octets_ne_nil h
  match v with
  | length n => exact walk_fst hne hdrop fun x hv hr => decLength_spec hv h hr
  | u32t value => exact walk_fst hne hdrop fun x hv hr => decU32t_spec hv h hr
  | s32t value => exact walk_fst hne hdrop fun x hv hr => decS32t_spec hv h.1 h.2 hr
  | raw bs =>
    intro raw_len hle
    have hpos : 0 < bs.length := h.1
    unfold decRaw
    rw [if_pos hpos, if_pos hle]
    exact walk_fst hne hdrop fun x hv hr => decRawOctets_spec hv hne hr
  | oid [] => exact h.elim
  | oid [_] => exact h.elim
  | oid (a :: b :: ident) =>
    intro old
    have hcnt := Value.octets_length h
    obtain ⟨hpair, hlen, hids⟩ := h
    have hpair' : 0 ≤ a ∧ a ≤ 1 ∧ 0 ≤ b ∧ b < 40 ∨ a = 2 ∧ 0 ≤ b ∧ b ≤ 175 :=
      hpair.imp_right fun ⟨ha, hb⟩ => ⟨ha, hb, hfits a b ident rfl ha⟩
    show (walk (decOid old (oid (a :: b :: ident)).cnt) c.pbufs ofs).1 = _
    rw [← hcnt]
    apply walk_fst hne hdrop
    intro x hv hr
    apply decOid_spec hv old hpair' _ (Nat.le_of_add_le_add_right hlen) hr
    exact fun id hid => hids id (List.mem_cons_of_mem _ (List.mem_cons_of_mem _ hid))

/-- A value whose octets are written in one go. -/
theorem roundTrip_of_writeAll (h : v.Legal) (hroom : ofs + v.cnt ≤ c.octets.length)
    (hfits : ∀ a b ident, v = .oid (a :: b :: ident) → a = 2 → b ≤ 175)
    (henc : walk v.enc c.pbufs ofs = walk (writeAll v.octets) c.pbufs ofs) : RoundTrip c ofs v := by
  have hlen := Value.octets_length h
  rw [← hlen] at hroom
  obtain ⟨c', hwrite, hshape, hoctets⟩ := walk_writeAll c (Value.octets_ne_nil h) hroom
  have htake : (c.octets.take ofs).length = ofs := List.length_take_of_le (by omega)
  have hdrop : c'.octets.drop ofs = v.octets ++ c.octets.drop (ofs + v.octets.length) := by
    rw [hoctets, List.append_assoc]
    nth_rewrite 1 [← htake]
    rw [List.drop_left]
  refine ⟨c', henc.trans hwrite, hshape, ?_, ?_, Value.decoded h hfits hdrop⟩
  · rw [hoctets, List.append_assoc]
    nth_rewrite 1 [← htake]
    rw [List.take_left]
  · rw [← hlen, ← List.drop_drop, hdrop, List.drop_left]

/-! ## Two elements -/

/-- Behind two elements there has to be an octet, which is not written. -/
theorem encOid_pair_walk (a b : ℤ) (hlt : ofs + 1 < c.octets.length) :
    walk (encOid [a, b]) c.pbufs ofs = walk (writeAll (oidOctets [a, b])) c.pbufs ofs := by
  have hofs : ofs < c.octets.length := Nat.lt_of_succ_lt hlt
  obtain ⟨x, hv, -, -, hrest, hwalk⟩ := walk_eq c hofs
  have hlen : 2 ≤ (c.octets.drop ofs).length := by
    rw [List.length_drop]
    omega
  match hd : c.octets.drop ofs with
  | [] | [_] => simp [hd] at hlen
  | d :: d' :: ds =>
    rw [hd] at hrest
    obtain ⟨x', hput, hv', hr', -, -⟩ := put_spec hv hrest (prefixOctet a b)
    obtain ⟨x'', hstep, -, -, -, hchain⟩ := step_spec hv' hr'
    have hwrite : writeAll (oidOctets [a, b]) x = (.ok (), x') := hput
    rw [hwalk, hwalk, encOid_pair, bind_ok hput, bind_ok hstep, hwrite, ← hchain]
    rfl

/-- Two elements in the last octet are written, but there is no octet to move on to. -/
theorem encOid_pair_last (a b : ℤ) (hlast : ofs + 1 = c.octets.length) :
    (walk (encOid [a, b]) c.pbufs ofs).1 = .error .ARG := by
  obtain ⟨d, hd⟩ : ∃ d, c.octets.drop ofs = [d] := by
    apply List.length_eq_one_iff.mp
    rw [List.length_drop]
    omega
  rw [← List.append_nil [d]] at hd
  apply walk_fst (List.cons_ne_nil d []) hd
  intro x hv hr
  obtain ⟨x', hput, hv', hr', -, -⟩ := put_spec hv hr (prefixOctet a b)
  have hend := step_end hv' hr'
  cases hstep : step x' with
  | mk r x'' =>
    rw [hstep] at hend
    obtain rfl := hend
    rw [encOid_pair, bind_ok hput, bind_error hstep]

/-! ## Where values come back -/

/-- A value is written octet by octet. -/
theorem Value.enc_eq (h : v.Legal) (hpair : ∀ a b, v ≠ oid [a, b]) : v.enc = writeAll v.octets := by
  match v with
  | length n => exact encLength_eq n
  | u32t value => exact encU32t_eq _ value
  | s32t value => exact encValue_eq value _
  | raw bs => exact encRaw_eq bs
  | oid [] => exact h.elim
  | oid [_] => exact h.elim
  | oid [a, b] => exact absurd rfl (hpair a b)
  | oid (a :: b :: c :: ident) => exact encOid_eq a b (List.cons_ne_nil c ident)

/-- A value that fits is read as it was written. -/
theorem roundTrip_of_fits (h : v.Legal) (hroom : ofs + v.cnt ≤ c.octets.length)
    (hfits : v.Fits c.octets.length ofs) :
    RoundTrip c ofs v := by
  apply roundTrip_of_writeAll h hroom
  · rintro a b ident rfl
    exact hfits.2
  · by_cases hpair : ∃ a b, v = .oid [a, b]
    · obtain ⟨a, b, rfl⟩ := hpair
      exact encOid_pair_walk a b (hfits.1 rfl)
    · rw [Value.enc_eq h fun a b hv => hpair ⟨a, b, hv⟩]

/-- A value that is read as it was written fits. -/
theorem fits_of_roundTrip (h : v.Legal) (hroom : ofs + v.cnt ≤ c.octets.length)
    (hround : RoundTrip c ofs v) : v.Fits c.octets.length ofs := by
  have hlen := Value.octets_length h
  have hpos := List.length_pos_iff.mpr (Value.octets_ne_nil h)
  obtain ⟨c', hwrite, -, -, -, hdec⟩ := hround
  match v with
  | .length _ | .u32t _ | .s32t _ | .raw _ => trivial
  | .oid [] => exact h.elim
  | .oid [_] => exact h.elim
  | .oid (a :: b :: ident) =>
    constructor
    · rintro rfl
      by_contra hge
      have hlast := encOid_pair_last a b (show ofs + 1 = c.octets.length by omega)
      rw [show walk (encOid [a, b]) c.pbufs ofs = _ from hwrite] at hlast
      cases hlast
    · rintro -
      rw [hlen] at hpos
      obtain ⟨x, hread⟩ := walk_fst_ok (hdec fun _ => 0)
      obtain ⟨a', b', tail, heq, hle⟩ := decOid_append _ hpos hread
      cases heq
      exact hle

/-- Values come back, but for an identifier of two elements in the last octet and for one whose
first two elements do not fit into an octet. -/
theorem asn1_round_trip (c : Chain) (ofs : ℕ) (v : Value) (h : v.Legal)
    (hroom : ofs + v.cnt ≤ c.octets.length) :
    RoundTrip c ofs v ↔ v.Fits c.octets.length ofs :=
  ⟨fits_of_roundTrip h hroom, roundTrip_of_fits h hroom⟩

end Value

/-- Five octets in three pbufs. -/
def exampleChain : Chain := ⟨[[7, 7], [7], [7, 7]], by decide, by decide⟩

/-- The identifier 1.3.6.300 from the second octet on, over all three pbufs. -/
theorem asn1_round_trip_split :
    (1 + (Value.oid [1, 3, 6, 300]).cnt ≤ exampleChain.octets.length) ∧
      RoundTrip exampleChain 1 (.oid [1, 3, 6, 300]) :=
  ⟨by decide, (asn1_round_trip exampleChain 1 (.oid [1, 3, 6, 300])
    ⟨.inl (by decide), by decide, by decide⟩ (by decide)).mpr
    ⟨fun h => absurd h (by decide), by decide⟩⟩

/-- The identifier 1.3 has a count of one octet, for which there is room at the end, but it is not
written with success. -/
theorem pair_at_end_fails :
    ¬ ∀ (c : Chain) (ofs : ℕ) (v : Value), v.Legal → ofs + v.cnt ≤ c.octets.length →
    RoundTrip c ofs v := by
  intro hall
  obtain ⟨c', hwrite, -⟩ :=
    hall exampleChain 4 (.oid [1, 3]) ⟨.inl (by decide), by decide, by decide⟩ (by decide)
  have hfails : (walk (encOid [1, 3]) exampleChain.pbufs 4).1 = .error .ARG := by decide
  rw [show walk (encOid [1, 3]) exampleChain.pbufs 4 = _ from hwrite] at hfails
  cases hfails

end Lwip.Snmp
