import Lwip.Snmp.Octets

/-!
# Reading ASN.1 fields

The functions of `asn1_dec.c` at a position from which on a chain has the octets of a field: each of
them returns what the field is for. For values over several octets, what a loop has read is the
quotient of the value by a power, two to the eighth or to the seventh for each octet that follows.
-/

namespace Lwip.Snmp

/-! ## Bits of an octet -/

/-- The high bit of an octet. -/
theorem and_0x80_toNat (b : UInt8) : (b &&& 0x80).toNat = b.toNat / 128 * 128 := by
  have hand : ∀ n < 256, n &&& 128 = n / 128 * 128 := by decide +kernel
  rw [UInt8.toNat_and]
  exact hand b.toNat b.toNat_lt

/-- An octet with the high bit set. -/
theorem or_0x80_toNat (b : UInt8) : (b ||| 0x80).toNat = b.toNat % 128 + 128 := by
  have hor : ∀ n < 256, n ||| 128 = n % 128 + 128 := by decide +kernel
  rw [UInt8.toNat_or]
  exact hor b.toNat b.toNat_lt

/-- An octet without the high bit. -/
theorem and_0x7f_toNat (b : UInt8) : (b &&& 0x7f).toNat = b.toNat % 128 := by
  rw [UInt8.toNat_and]
  exact Nat.and_two_pow_sub_one_eq_mod b.toNat 7

/-- The topmost bit. -/
theorem and_0x80_ne_zero (b : UInt8) : b &&& 0x80 ≠ 0 ↔ 128 ≤ b.toNat := by
  have hlt := b.toNat_lt
  rw [ne_eq, ← UInt8.toNat_inj, and_0x80_toNat, UInt8.toNat_zero]
  omega

/-- An octet of a value is the remainder that the next shift keeps. -/
theorem octet_ediv (v : ℤ) (k : ℕ) :
    v / 2^(8 * k) = v / 2^(8 * (k + 1)) * 2^8 + ((octet (v / 2^(8 * k))).toNat : ℤ) := by
  rw [octet_toNat, Nat.mul_succ, pow_add, ← Int.ediv_ediv_of_nonneg (pow_nonneg (by decide) _)]
  omega

section Read

variable {α : Type} {x : Ptr} {b b' : UInt8} {bs : List UInt8}

/-- The octet behind the one at the position. -/
theorem next_spec (h : x.Valid) (hr : x.rest = b :: b' :: bs) (f : UInt8 → Walk α) :
    ∃ x' : Ptr, x'.Valid ∧ x'.rest = b' :: bs ∧ (do step; let c ← take; f c) x = f b' x' := by
  obtain ⟨x', hstep, hv, hr', -, -⟩ := step_spec h hr
  refine ⟨x', hv, hr', ?_⟩
  rw [bind_ok hstep, bind_ok (take_spec hv hr')]

/-! ## Length fields -/

/-- A length that was written is read. -/
theorem decLength_spec (h : x.Valid) {length : ℕ} (hlt : length < 2^16)
    (hr : x.rest = lengthOctets length ++ bs) :
    (decLength x).1 = .ok (encLengthCnt length, length) := by
  have hoct := octet_toNat length
  unfold lengthOctets at hr
  unfold encLengthCnt
  by_cases h7 : length < 0x80
  · rw [if_pos h7] at hr ⊢
    have hnat : (octet length).toNat = length := by omega
    have hb : octet length < 0x80 := UInt8.lt_iff_toNat_lt.mpr (hnat.trans_lt h7)
    unfold decLength
    rw [bind_ok (take_spec h hr), if_pos hb, hnat]
    rfl
  rw [if_neg h7] at hr ⊢
  by_cases h8 : length < 0x100
  · rw [if_pos h8] at hr ⊢
    have hnat : (octet length).toNat = length := by omega
    obtain ⟨x', -, -, hnext⟩ := next_spec h hr fun c => pure (2, c.toNat)
    calc (decLength x).1 = ((do step; let c ← take; pure (2, c.toNat)) x :
      Except Stop (ℕ × ℕ) × Ptr).1 := by
          unfold decLength
          rw [bind_ok (take_spec h hr)]
          rfl
      _ = .ok (2, length) := by
          rw [hnext, hnat]
          rfl
  · rw [if_neg h8] at hr ⊢
    have hhi := octet_toNat (length / 2^8)
    have hor := Nat.shiftLeft_add_eq_or_of_lt (octet length).toNat_lt
      (octet (length / 2^8 : ℤ)).toNat
    have hnat : (octet (length / 2^8 : ℤ)).toNat <<< 8 ||| (octet length).toNat = length := by
      rw [← hor, Nat.shiftLeft_eq]
      omega
    obtain ⟨x', hv, hr', hnext⟩ :=
      next_spec h hr fun hi => do step; let lo ← take; pure (3, hi.toNat <<< 8 ||| lo.toNat)
    obtain ⟨x'', -, -, hnext'⟩ :=
      next_spec hv hr' fun lo => pure (3, (octet (length / 2^8 : ℤ)).toNat <<< 8 ||| lo.toNat)
    calc (decLength x).1 = ((do
            step
            let hi ← take
            step
            let lo ← take
            pure (3, hi.toNat <<< 8 ||| lo.toNat)) x : Except Stop (ℕ × ℕ) × Ptr).1 := by
          unfold decLength
          rw [bind_ok (take_spec h hr)]
          rfl
      _ = .ok (3, length) := by
          rw [hnext, hnext', hnat]
          rfl

/-! ## Values -/

/-- What is read of an unsigned value with the next octet. -/
theorem or_octet {value v : ℕ} {k : ℕ} (h : (value : ℤ) = v / 2^(8 * (k + 1)) * 2^8) :
    value ||| (octet (v / 2^(8 * k))).toNat = v / 2^(8 * k) := by
  have hsplit := octet_ediv v k
  have hvalue : value = value / 2^8 * 2^8 := by omega
  have hor := Nat.shiftLeft_add_eq_or_of_lt (octet (v / 2^(8 * k))).toNat_lt (value / 2^8)
  rw [Nat.shiftLeft_eq, ← hvalue] at hor
  rw [← hor]
  apply Int.ofNat_inj.mp
  push_cast
  rw [h, ← hsplit]

/-- The octets of a number that were written are read. -/
theorem decOctets_spec (h : x.Valid) {v : ℕ} (hlt : v < 2^32) {n value : ℕ}
    (hvalue : (value : ℤ) = v / 2^(8 * (n + 1)) * 2^8) (hr : x.rest = valueOctets v (n + 1) ++ bs) :
    (decOctets (n + 1) value x).1 = .ok v := by
  induction n generalizing x value with
  | zero =>
    have hlast := or_octet (k := 0) hvalue
    rw [Nat.mul_zero, pow_zero, pow_zero, Int.ediv_one, Nat.div_one] at hlast
    unfold decOctets
    rw [bind_ok (take_spec h hr), hlast]
    rfl
  | succ n ih =>
    have hval := valueOctets_ne_nil v (n + 1)
    obtain ⟨b', bs', hb'⟩ := List.exists_cons_of_ne_nil hval
    have hread := or_octet hvalue
    rw [valueOctets, hb'] at hr
    obtain ⟨x', hstep, hv, hr', -, -⟩ := step_spec h hr
    -- Nothing is shifted out, since at least one more octet follows.
    have hquot : v / 2^(8 * (n + 1)) ≤ v / 2^8 := by
      apply Nat.div_le_div_left _ (by decide)
      exact Nat.pow_le_pow_right (by decide) (by omega)
    have hshift : (v / 2^(8 * (n + 1))) <<< 8 % 2^32 = v / 2^(8 * (n + 1)) * 2^8 := by
      rw [Nat.shiftLeft_eq]
      apply Nat.mod_eq_of_lt
      omega
    unfold decOctets
    rw [bind_ok (take_spec h hr), bind_ok hstep, hread, hshift]
    apply ih hv
    · push_cast
      rfl
    · rw [hr', hb']
      rfl

/-- An unsigned value with a leading zero octet is one with five octets. -/
theorem u32tOctets_eq {v : ℕ} (hlt : v < 2^32) (n : ℕ) : u32tOctets n v = valueOctets v n := by
  have hzero : (v : ℤ) / 2^32 = 0 :=
    Int.ediv_eq_zero_of_lt (Int.natCast_nonneg v) (by exact_mod_cast hlt)
  unfold u32tOctets
  split
  · subst n
    show _ = octet (v / 2^32) :: valueOctets v 4
    rw [hzero]
    rfl
  · rfl

/-- The first octet of a value. -/
theorem valueOctets_cons (v : ℤ) (n : ℕ) :
    ∃ tail, valueOctets v (n + 1) = octet (v / 2^(8 * n)) :: tail ∧
      (0 < n → tail = valueOctets v n) := by
  cases n with
  | zero =>
    have hval : valueOctets v 1 = [octet (v / 2^(8 * 0))] := by
      rw [Nat.mul_zero, pow_zero, Int.ediv_one]
      rfl
    exact ⟨[], hval, fun h => absurd h (Nat.lt_irrefl 0)⟩
  | succ n => exact ⟨_, rfl, fun _ => rfl⟩

/-- The octets that are counted leave room for a sign. -/
theorem encU32tCnt_spec {v : ℕ} (hlt : v < 2^32) :
    ∃ n : ℕ, encU32tCnt v = n + 1 ∧ n < 5 ∧ (v : ℤ) / 2^(8 * n) < 128 := by
  unfold encU32tCnt
  split
  · exact ⟨0, rfl, by omega, by omega⟩
  split
  · exact ⟨1, rfl, by omega, by omega⟩
  split
  · exact ⟨2, rfl, by omega, by omega⟩
  split
  · exact ⟨3, rfl, by omega, by omega⟩
  · exact ⟨4, rfl, by omega, by omega⟩

/-- A number that was written is read. -/
theorem decU32t_spec (h : x.Valid) {v : ℕ} (hlt : v < 2^32)
    (hr : x.rest = u32tOctets (encU32tCnt v) v ++ bs) : (decU32t (encU32tCnt v) x).1 = .ok v := by
  obtain ⟨n, hn, hn5, hsign⟩ := encU32tCnt_spec hlt
  rw [u32tOctets_eq hlt, hn] at hr
  rw [hn]
  have hr' := hr
  obtain ⟨tail, hcons, htail⟩ := valueOctets_cons v n
  rw [hcons] at hr'
  have hpow : (0 : ℤ) < 2^(8 * n) := pow_pos (by decide) _
  have hnonneg : 0 ≤ (v : ℤ) / 2^(8 * n) :=
    Int.ediv_nonneg (Int.natCast_nonneg v) (Int.le_of_lt hpow)
  have hoct := octet_toNat (v / 2^(8 * n))
  have hpos : ¬ octet (v / 2^(8 * n)) &&& 0x80 ≠ 0 := by
    rw [and_0x80_ne_zero]
    omega
  have hlen : 0 < n + 1 ∧ n + 1 < 6 := ⟨Nat.succ_pos n, by omega⟩
  unfold decU32t
  rw [if_pos hlen, bind_ok (take_spec h hr'), if_neg hpos]
  by_cases hskip : 1 < n + 1 ∧ octet (v / 2^(8 * n)) = 0
  · obtain ⟨hn1, hzero⟩ := hskip
    obtain ⟨m, rfl⟩ : ∃ m, n = m + 1 := ⟨n - 1, by omega⟩
    rw [htail (Nat.succ_pos m)] at hr'
    obtain ⟨b', bs', hb'⟩ := List.exists_cons_of_ne_nil (valueOctets_ne_nil v (m + 1))
    rw [hb'] at hr'
    obtain ⟨x', hstep, hv, hrest, -, -⟩ := step_spec h hr'
    rw [if_pos ⟨hn1, hzero⟩, bind_ok hstep]
    rw [hzero, UInt8.toNat_zero] at hoct
    apply decOctets_spec hv hlt
    · push_cast
      omega
    · rw [hrest, hb']
      rfl
  · rw [if_neg hskip]
    apply decOctets_spec h hlt _ hr
    rw [Nat.mul_succ, pow_add, ← Int.ediv_ediv_of_nonneg (Int.le_of_lt hpow)]
    push_cast
    omega

/-! ## Signed values -/

/-- A value in range is stored as it is. -/
theorem s32_eq {v : ℤ} (h : -2^31 ≤ v) (hlt : v < 2^31) : s32 v = v := Int.bmod_eq_of_le h hlt

/-- A bound on a quotient. -/
theorem ediv_bounds {a b d : ℤ} (h : -b ≤ a) (hlt : a < b) (hd : 0 < d) :
    -b ≤ a / d ∧ a / d < b := by
  have hmul : b * 1 ≤ b * d := Int.mul_le_mul_of_nonneg_left hd (by omega)
  constructor
  · apply Int.le_ediv_of_mul_le hd
    rw [Int.neg_mul]
    omega
  · apply Int.ediv_lt_of_lt_mul hd
    omega

/-- The low octet of a negative number is filled. -/
theorem andLsb_eq {v : ℤ} (h : v % 2^8 = 255) (b : UInt8) : andLsb v b = v - 255 + b.toNat := by
  have hand : (octet v &&& b).toNat = b.toNat := by
    have hoct : (octet v).toNat = 2^8 - 1 := by
      have hv := octet_toNat v
      omega
    rw [UInt8.toNat_and, hoct, Nat.and_comm, Nat.and_two_pow_sub_one_eq_mod]
    exact Nat.mod_eq_of_lt b.toNat_lt
  unfold andLsb
  rw [hand, h]

/-- The low octet of a number is filled. -/
theorem orLsb_eq {v : ℤ} (h : v % 2^8 = 0) (b : UInt8) : orLsb v b = v + b.toNat := by
  have hor : (octet v ||| b).toNat = b.toNat := by
    have hoct : (octet v).toNat = 0 := by
      have hv := octet_toNat v
      omega
    rw [UInt8.toNat_or, hoct, Nat.zero_or]
  unfold orLsb
  rw [hor, h]
  omega

/-- What is read of a signed value with the next octet. -/
theorem signed_octet {v value : ℤ} {sign : Bool} {k : ℕ}
    (h : value = v / 2^(8 * (k + 1)) * 2^8 + if sign then 255 else 0) :
    (if sign then andLsb value (octet (v / 2^(8 * k))) else orLsb value (octet (v / 2^(8 * k)))) =
      v / 2^(8 * k) := by
  have hsplit := octet_ediv v k
  cases sign with
  | true =>
    rw [if_pos rfl] at h ⊢
    rw [andLsb_eq (by omega)]
    omega
  | false =>
    rw [if_neg Bool.false_ne_true] at h ⊢
    rw [orLsb_eq (by omega)]
    omega

/-- The octets of a signed number that were written are read. -/
theorem decSigned_spec (h : x.Valid) {v : ℤ} (hle : -2^31 ≤ v) (hlt : v < 2^31) {sign : Bool}
    {n : ℕ} {value : ℤ}
    (hvalue : value = v / 2^(8 * (n + 1)) * 2^8 + if sign then 255 else 0)
    (hr : x.rest = valueOctets v (n + 1) ++ bs) : (decSigned sign (n + 1) value x).1 = .ok v := by
  induction n generalizing x value with
  | zero =>
    have hlast := signed_octet (k := 0) hvalue
    rw [Nat.mul_zero, pow_zero, Int.ediv_one] at hlast
    unfold decSigned
    rw [bind_ok (take_spec h hr), hlast]
    rfl
  | succ n ih =>
    obtain ⟨b', bs', hb'⟩ := List.exists_cons_of_ne_nil (valueOctets_ne_nil v (n + 1))
    have hread := signed_octet hvalue
    rw [valueOctets, hb'] at hr
    obtain ⟨x', hstep, hv, hr', -, -⟩ := step_spec h hr
    -- At least one more octet follows, so that the shift does not overflow.
    have hshift : s32 (v / 2^(8 * (n + 1)) * 2^8) = v / 2^(8 * (n + 1)) * 2^8 := by
      have hpow : (0 : ℤ) < 2^(8 * n) := pow_pos (by decide) _
      have hbounds := ediv_bounds (by omega : -2^23 ≤ v / 2^8) (by omega) hpow
      rw [Int.ediv_ediv_of_nonneg (by decide), ← pow_add, Nat.add_comm] at hbounds
      apply s32_eq <;> rw [Nat.mul_succ] <;> omega
    unfold decSigned
    rw [bind_ok (take_spec h hr), bind_ok hstep]
    apply ih hv
    · cases sign with
      | true =>
        rw [if_pos rfl] at hread
        rw [if_pos rfl, if_pos rfl, hread, hshift, orLsb_eq (by omega)]
        rfl
      | false =>
        rw [if_neg Bool.false_ne_true] at hread
        rw [if_neg Bool.false_ne_true, if_neg Bool.false_ne_true, hread, hshift, Int.add_zero]
    · rw [hr', hb']
      rfl

/-- The octets that are counted leave room for the sign. -/
theorem encS32tCnt_spec {v : ℤ} (hle : -2^31 ≤ v) (hlt : v < 2^31) :
    ∃ n : ℕ, encS32tCnt v = n + 1 ∧ n < 4 ∧ -128 ≤ v / 2^(8 * n) ∧ v / 2^(8 * n) < 128 := by
  unfold encS32tCnt
  dsimp only
  have habs : ∃ w, (if v < 0 then -v - 1 else v) = w ∧ -(w + 1) ≤ v ∧ v ≤ w ∧ w < 2^31 := by
    refine ⟨_, rfl, ?_⟩
    split <;> omega
  obtain ⟨w, hw, hlo, hhi, hlt'⟩ := habs
  rw [hw]
  split
  · exact ⟨0, rfl, by omega, by omega, by omega⟩
  split
  · exact ⟨1, rfl, by omega, by omega, by omega⟩
  split
  · exact ⟨2, rfl, by omega, by omega, by omega⟩
  · exact ⟨3, rfl, by omega, by omega, by omega⟩

/-- A signed number that was written is read. -/
theorem decS32t_spec (h : x.Valid) {v : ℤ} (hle : -2^31 ≤ v) (hlt : v < 2^31)
    (hr : x.rest = valueOctets v (encS32tCnt v) ++ bs) : (decS32t (encS32tCnt v) x).1 = .ok v := by
  obtain ⟨n, hn, hn4, hmin, hmax⟩ := encS32tCnt_spec hle hlt
  rw [hn] at hr ⊢
  have hr' := hr
  obtain ⟨tail, hcons, -⟩ := valueOctets_cons v n
  rw [hcons] at hr'
  have hoct := octet_toNat (v / 2^(8 * n))
  have hpow : (0 : ℤ) < 2^(8 * n) := pow_pos (by decide) _
  have hlen : 0 < n + 1 ∧ n + 1 < 5 := ⟨Nat.succ_pos n, by omega⟩
  have hquot : v / 2^(8 * (n + 1)) = v / 2^(8 * n) / 2^8 := by
    rw [Nat.mul_succ, pow_add, ← Int.ediv_ediv_of_nonneg (Int.le_of_lt hpow)]
  unfold decS32t
  rw [if_pos hlen, bind_ok (take_spec h hr')]
  -- The topmost bit of the first octet is the sign, with which the octets before it would be
  -- filled.
  by_cases hsign : octet (v / 2^(8 * n)) &&& 0x80 ≠ 0
  · rw [if_pos hsign]
    rw [and_0x80_ne_zero] at hsign
    apply decSigned_spec h hle hlt _ hr
    rw [if_pos rfl]
    omega
  · rw [if_neg hsign]
    rw [and_0x80_ne_zero] at hsign
    apply decSigned_spec h hle hlt _ hr
    rw [if_neg Bool.false_ne_true]
    omega

/-! ## Octet strings -/

/-- A string that was written is read. -/
theorem decRawOctets_spec (h : x.Valid) {raw : List UInt8} (hne : raw ≠ [])
    (hr : x.rest = raw ++ bs) : (decRawOctets raw.length x).1 = .ok raw := by
  induction raw generalizing x with
  | nil => exact absurd rfl hne
  | cons c raw ih =>
    cases raw with
    | nil =>
      show (decRawOctets 1 x).1 = _
      unfold decRawOctets
      rw [bind_ok (take_spec h hr)]
      rfl
    | cons c' raw =>
      obtain ⟨x', hstep, hv, hr', -, -⟩ := step_spec h hr
      show (decRawOctets (raw.length + 2) x).1 = _
      unfold decRawOctets
      rw [bind_ok (take_spec h hr), bind_ok hstep]
      have htail := ih hv (List.cons_ne_nil c' raw) hr'
      cases hdec : decRawOctets (raw.length + 1) x' with
      | mk r x'' =>
        rw [List.length_cons, hdec] at htail
        obtain rfl := htail
        rw [bind_ok hdec]
        rfl

/-! ## Object identifiers -/

/-- Every octet of a sub-identifier but the last one says that another one follows. -/
theorem subIdCodes_and_0x80 (id : ℤ) (k : ℕ) (tail : Bool) :
    ∀ c ∈ subIdCodes id k tail, c &&& 0x80 ≠ 0 := by
  induction k generalizing tail with
  | zero => exact fun c hc => absurd hc List.not_mem_nil
  | succ k ih =>
    unfold subIdCodes
    dsimp only
    split
    · intro c hc
      rcases List.mem_cons.mp hc with rfl | hc
      · rw [and_0x80_ne_zero, or_0x80_toNat]
        omega
      · exact ih true c hc
    · exact ih tail

section SubId

variable {id : ℤ} (h0 : 0 ≤ id) (hlt : id < 2^31)

include h0 hlt

/-- The octets of a sub-identifier that were written are read. -/
theorem decSubId_spec (h : x.Valid) {k m : ℕ} {tail : Bool} {sub_id : ℤ} {last : UInt8}
    (hsub : sub_id = id / 2^(7 * (k + 1))) (hskip : tail = false → sub_id = 0)
    (hlast : ¬ last &&& 0x80 ≠ 0) (hr : x.rest = subIdCodes id k tail ++ last :: bs) :
    ∃ x' : Ptr, decSubId ((subIdCodes id k tail).length + (m + 1)) sub_id x =
    (.ok (id / 2^7, m + 1), x') ∧
      x'.Valid ∧ x'.rest = last :: bs := by
  induction k generalizing x tail sub_id with
  | zero =>
    refine ⟨x, ?_, h, hr⟩
    show decSubId (0 + (m + 1)) sub_id x = _
    rw [Nat.zero_add, hsub]
    cases m with
    | zero => rfl
    | succ m =>
      unfold decSubId
      rw [bind_ok (take_spec h hr), if_neg hlast]
      rfl
  | succ k ih =>
    have hpow : (0 : ℤ) < 2^(7 * (k + 1)) := pow_pos (by decide) _
    have hquot : id / 2^(7 * (k + 1 + 1)) = id / 2^(7 * (k + 1)) / 2^7 := by
      rw [Nat.mul_succ 7 (k + 1), pow_add, ← Int.ediv_ediv_of_nonneg (Int.le_of_lt hpow)]
    have hnonneg : 0 ≤ id / 2^(7 * (k + 1)) := Int.ediv_nonneg h0 (Int.le_of_lt hpow)
    have hself : id / 2^(7 * (k + 1)) ≤ id := Int.ediv_le_self _ h0
    have hoct := octet_toNat (id / 2^(7 * (k + 1)))
    rw [hquot] at hsub
    unfold subIdCodes at hr ⊢
    dsimp only at hr ⊢
    split
    · rename_i hcode
      rw [if_pos hcode] at hr
      obtain ⟨c, cs, hcs⟩ := List.exists_cons_of_ne_nil
        (List.append_ne_nil_of_right_ne_nil (subIdCodes id k true) (List.cons_ne_nil last bs))
      rw [List.cons_append, hcs] at hr
      obtain ⟨x₁, hstep, hv₁, hr₁, -, -⟩ := step_spec h hr
      have hbit : (octet (id / 2^(7 * (k + 1))) ||| 0x80) &&& 0x80 ≠ 0 := by
        rw [and_0x80_ne_zero, or_0x80_toNat]
        omega
      have hnext : s32 (sub_id * 2^7 + ((octet (id / 2^(7 * (k + 1))) ||| 0x80) &&& 0x7f).toNat) =
          id / 2^(7 * (k + 1)) := by
        rw [and_0x7f_toNat, or_0x80_toNat]
        have hval : sub_id * 2^7 + (((octet (id / 2^(7 * (k + 1)))).toNat % 128 + 128) % 128 : ℕ) =
            id / 2^(7 * (k + 1)) := by omega
        rw [hval]
        exact s32_eq (by omega) (by omega)
      have hr₂ : x₁.rest = subIdCodes id k true ++ last :: bs := hr₁.trans hcs.symm
      obtain ⟨x', hdec, hv, hr'⟩ := ih hv₁ rfl (fun hf => absurd hf Bool.false_ne_true.symm) hr₂
      refine ⟨x', ?_, hv, hr'⟩
      have hlen : (subIdCodes id k true).length + 1 + (m + 1) =
          (subIdCodes id k true).length + m + 2 := by
        omega
      rw [← hdec, List.length_cons, hlen, decSubId, bind_ok (take_spec h hr), if_pos hbit,
        bind_ok hstep, hnext]
      rfl
    · -- A leading group of zeros is left out.
      rename_i hcode
      rw [if_neg hcode] at hr
      rw [not_or, not_not, Bool.not_eq_true] at hcode
      obtain ⟨hzero, rfl⟩ := hcode
      rw [hzero, UInt8.toNat_zero] at hoct
      have hs := hskip rfl
      apply ih h _ hskip hr
      omega

/-- A sub-identifier that was written is read. -/
theorem decElement_spec (h : x.Valid) (old : ℤ) {c : UInt8} {cs : List UInt8} (m : ℕ)
    (hc : subIdOctets id = c :: cs) (hr : x.rest = subIdOctets id ++ bs) :
    ∃ (x' : Ptr) (last : UInt8), decElement old c ((subIdOctets id).length + m) x =
    (.ok (id, m), x') ∧
      x'.Valid ∧ x'.rest = last :: bs := by
  have hoct := octet_toNat id
  have hval := and_0x7f_toNat (octet id)
  have hlast : ¬ (octet id &&& 0x7f) &&& 0x80 ≠ 0 := by
    rw [and_0x80_ne_zero, hval]
    omega
  have hlen : (subIdOctets id).length + m = (subIdCodes id 4 false).length + (m + 1) := by
    rw [subIdOctets, List.length_append, List.length_singleton, Nat.add_assoc, Nat.add_comm 1 m]
  rw [hlen]
  rw [subIdOctets, List.append_assoc, List.singleton_append] at hr
  rw [subIdOctets] at hc
  unfold decElement
  cases hcodes : subIdCodes id 4 false with
  | nil =>
    -- One octet is enough.
    have hsmall : id < 2^7 := by
      have hnone := subIdCodes_length h0 (k := 4) (by omega)
      rw [hcodes, encOidGroups] at hnone
      by_contra hge
      rw [if_pos (by omega)] at hnone
      cases hnone
    rw [hcodes, List.nil_append] at hr hc
    obtain ⟨rfl, -⟩ := List.cons.inj hc
    rw [if_neg hlast]
    refine ⟨x, _, ?_, h, hr⟩
    show (Except.ok (((octet id &&& 0x7f).toNat : ℤ), 0 + (m + 1) - 1), x) = _
    rw [Nat.zero_add, Nat.add_sub_cancel, show ((octet id &&& 0x7f).toNat : ℤ) = id by omega]
  | cons c' cs' =>
    have hbit := subIdCodes_and_0x80 id 4 false c' (by rw [hcodes]; exact List.mem_cons_self)
    have hc' : c = c' := by
      rw [hcodes] at hc
      exact (List.cons.inj hc).1.symm
    have hsub : (0 : ℤ) = id / 2^(7 * (4 + 1)) := (Int.ediv_eq_zero_of_lt h0 (by omega)).symm
    obtain ⟨x', hdec, hv, hr'⟩ := decSubId_spec h0 hlt h (m := m) hsub (fun _ => rfl) hlast hr
    have hid : s32 (id / 2^7 * 2^7 + (octet id &&& 0x7f).toNat) = id := by
      have hsum : id / 2^7 * 2^7 + ((octet id &&& 0x7f).toNat : ℤ) = id := by omega
      rw [hsum]
      exact s32_eq (by omega) (by omega)
    refine ⟨x', octet id &&& 0x7f, ?_, hv, hr'⟩
    rw [← hcodes, hc', if_pos hbit, bind_ok hdec]
    dsimp only
    rw [bind_ok (take_spec hv hr'), if_pos (not_not.mp hlast), hid]
    rfl

end SubId

/-- No sub-identifiers are left. -/
theorem decSubIds_nil (old : ℕ → ℤ) (room : ℕ) (id : List ℤ) :
    decSubIds old room 0 id x = (.ok (0, id), x) := by
  cases room <;> rfl

/-- Sub-identifiers that were written are read. -/
theorem decSubIds_spec (h : x.Valid) (old : ℕ → ℤ) {ident : List ℤ} (hne : ident ≠ [])
    (hids : ∀ id ∈ ident, 0 ≤ id ∧ id < 2^31) {room : ℕ} (hroom : ident.length ≤ room) (id : List ℤ)
    (hr : x.rest = ident.flatMap subIdOctets ++ bs) :
    (decSubIds old room (ident.flatMap subIdOctets).length id x).1 = .ok (0, id ++ ident) := by
  induction ident generalizing x room id with
  | nil => exact absurd rfl hne
  | cons i ident ih =>
    obtain ⟨h0, hlt⟩ := hids i List.mem_cons_self
    obtain ⟨c, cs, hcs⟩ := List.exists_cons_of_ne_nil (subIdOctets_ne_nil i)
    obtain ⟨room, rfl⟩ : ∃ r, room = r + 1 := ⟨room - 1, by rw [List.length_cons] at hroom; omega⟩
    rw [List.flatMap_cons, List.append_assoc] at hr
    obtain ⟨x₁, last, hone, hv₁, hr₁⟩ :=
      decElement_spec h0 hlt h (old id.length) (ident.flatMap subIdOctets).length hcs hr
    rw [List.flatMap_cons, List.length_append]
    rw [hcs] at hr hone ⊢
    rw [List.length_cons, Nat.add_right_comm] at hone ⊢
    unfold decSubIds
    rw [bind_ok (take_spec h hr), bind_ok hone]
    dsimp only
    by_cases hnil : ident = []
    · subst hnil
      show (decSubIds old room 0 (id ++ [i]) x₁).1 = _
      rw [decSubIds_nil]
    · have hpos := List.length_pos_iff.mpr (flatMap_subIdOctets_ne_nil hnil)
      obtain ⟨c', cs', hcs'⟩ := List.exists_cons_of_ne_nil (flatMap_subIdOctets_ne_nil hnil)
      rw [hcs'] at hr₁
      obtain ⟨x₂, hstep, hv₂, hr₂, -, -⟩ := step_spec hv₁ hr₁
      rw [if_pos hpos, bind_ok hstep]
      have hroom' : ident.length ≤ room := Nat.le_of_succ_le_succ hroom
      have hrest : x₂.rest = ident.flatMap subIdOctets ++ bs := by rw [hr₂, hcs']; rfl
      rw [ih hv₂ hnil (fun j hj => hids j (List.mem_cons_of_mem _ hj)) hroom' _ hrest,
        List.append_assoc, List.singleton_append]

/-- The common prefix 1.3 is read as any other. -/
theorem decPrefix_eq (c : UInt8) :
    decPrefix c =
      if c.toNat < 40 then [0, (c.toNat : ℤ)]
      else if c.toNat < 80 then [1, (c.toNat : ℤ) - 40]
      else [2, (c.toNat : ℤ) - 80] := by
  unfold decPrefix
  by_cases hiso : c = 0x2b
  · rw [if_pos hiso, hiso]
    rfl
  · rw [if_neg hiso]
    rfl

/-- The second element that is read fits into the octet. -/
theorem decPrefix_le (c : UInt8) : ∃ a b : ℤ, decPrefix c = [a, b] ∧ b ≤ 175 := by
  have hlt := c.toNat_lt
  rw [decPrefix_eq]
  split
  · exact ⟨_, _, rfl, by omega⟩
  split
  · exact ⟨_, _, rfl, by omega⟩
  · exact ⟨_, _, rfl, by omega⟩

/-- The first two elements are those of an identifier, where they fit into an octet. -/
theorem decPrefix_prefixOctet {a b : ℤ}
    (h : 0 ≤ a ∧ a ≤ 1 ∧ 0 ≤ b ∧ b < 40 ∨ a = 2 ∧ 0 ≤ b ∧ b ≤ 175) :
    decPrefix (prefixOctet a b) = [a, b] := by
  have hval : ((prefixOctet a b).toNat : ℤ) = a * 40 + b := by
    unfold prefixOctet
    split
    · rename_i hiso
      obtain ⟨rfl, rfl⟩ := hiso
      rfl
    · have hoct := octet_toNat (a * 40 + b)
      omega
  rw [decPrefix_eq, hval]
  obtain ⟨ha0, ha1, hb0, hb⟩ | ⟨rfl, hb0, hb⟩ := h
  · have ha : a = 0 ∨ a = 1 := by omega
    obtain rfl | rfl := ha
    · rw [if_pos (by omega)]
      simp
    · rw [if_neg (by omega), if_pos (by omega)]
      simp
  · rw [if_neg (by omega), if_neg (by omega)]
    simp

/-- An identifier that was written is read. -/
theorem decOid_spec (h : x.Valid) (old : ℕ → ℤ) {a b : ℤ} {ident : List ℤ}
    (hpair : 0 ≤ a ∧ a ≤ 1 ∧ 0 ≤ b ∧ b < 40 ∨ a = 2 ∧ 0 ≤ b ∧ b ≤ 175)
    (hids : ∀ id ∈ ident, 0 ≤ id ∧ id < 2^31) (hlen : ident.length ≤ 30)
    (hr : x.rest = oidOctets (a :: b :: ident) ++ bs) :
    (decOid old (oidOctets (a :: b :: ident)).length x).1 = .ok (a :: b :: ident) := by
  have hprefix := decPrefix_prefixOctet hpair
  have hcons : x.rest = prefixOctet a b :: (ident.flatMap subIdOctets ++ bs) := hr
  unfold decOid oidOctets
  rw [List.length_cons, if_neg (Nat.succ_ne_zero _), bind_ok (take_spec h hcons)]
  dsimp only
  rw [Nat.add_sub_cancel, hprefix]
  by_cases hnil : ident = []
  · subst hnil
    rfl
  · have hpos := List.length_pos_iff.mpr (flatMap_subIdOctets_ne_nil hnil)
    obtain ⟨c, cs, hcs⟩ := List.exists_cons_of_ne_nil (flatMap_subIdOctets_ne_nil hnil)
    rw [hcs] at hcons
    obtain ⟨x', hstep, hv, hrest, -, -⟩ := step_spec h hcons
    have hrest' : x'.rest = ident.flatMap subIdOctets ++ bs := by rw [hrest, hcs]; rfl
    have hsub := decSubIds_spec hv old hnil hids hlen [a, b] hrest'
    rw [if_pos hpos, bind_ok hstep]
    cases hdec : decSubIds old 30 (ident.flatMap subIdOctets).length [a, b] x' with
    | mk r x'' =>
      rw [hdec] at hsub
      obtain rfl := hsub
      show ((decSubIds old 30 _ [a, b] >>= _) x').1 = _
      rw [bind_ok hdec]
      rfl

/-- Elements that are read are put behind those that are there. -/
theorem decSubIds_append (old : ℕ → ℤ) {room len n : ℕ} {id r : List ℤ}
    (h : (decSubIds old room len id x).1 = .ok (n, r)) : ∃ tail, r = id ++ tail := by
  induction room generalizing x len id with
  | zero =>
    cases h
    exact ⟨[], (List.append_nil _).symm⟩
  | succ room ih =>
    cases len with
    | zero =>
      cases h
      exact ⟨[], (List.append_nil _).symm⟩
    | succ len =>
      unfold decSubIds at h
      obtain ⟨b, x₁, -, h⟩ := bind_fst_ok h
      obtain ⟨⟨sub_id, len'⟩, x₂, -, h⟩ := bind_fst_ok h
      have hstep : ∃ x₃, (decSubIds old room len' (id ++ [sub_id]) x₃).1 = .ok (n, r) := by
        dsimp only at h
        split at h
        · obtain ⟨-, x₃, -, h⟩ := bind_fst_ok h
          exact ⟨x₃, h⟩
        · exact ⟨x₂, h⟩
      obtain ⟨x₃, h⟩ := hstep
      obtain ⟨tail, rfl⟩ := ih h
      exact ⟨sub_id :: tail, List.append_assoc _ _ _⟩

/-- An identifier that is read starts with two elements that fit into an octet. -/
theorem decOid_append (old : ℕ → ℤ) {len : ℕ} {ident : List ℤ} (hlen : 0 < len)
    (hr : (decOid old len x).1 = .ok ident) :
    ∃ (a b : ℤ) (tail : List ℤ), ident = a :: b :: tail ∧ b ≤ 175 := by
  unfold decOid at hr
  rw [if_neg (Nat.ne_of_gt hlen)] at hr
  obtain ⟨c, x₁, -, hr⟩ := bind_fst_ok hr
  obtain ⟨a, b, hpair, hb⟩ := decPrefix_le c
  have hread : ∃ x₂, ((decSubIds old (LWIP_SNMP_OBJ_ID_LEN - 2) (len - 1) (decPrefix c) >>= fun r =>
      if r.1 = 0 then pure r.2 else stop .ARG : Walk (List ℤ)) x₂).1 = .ok ident := by
    dsimp only at hr
    split at hr
    · obtain ⟨-, x₂, -, hr⟩ := bind_fst_ok hr
      exact ⟨x₂, hr⟩
    · exact ⟨x₁, hr⟩
  obtain ⟨x₂, hread⟩ := hread
  obtain ⟨⟨n, r⟩, x₃, hdec, hread⟩ := bind_fst_ok hread
  have hfst : (decSubIds old (LWIP_SNMP_OBJ_ID_LEN - 2) (len - 1) (decPrefix c) x₂).1 =
      .ok (n, r) := by
    rw [hdec]
  obtain ⟨tail, rfl⟩ := decSubIds_append old hfst
  rw [hpair] at hread
  dsimp only at hread
  split at hread
  · cases hread
    exact ⟨a, b, tail, rfl, hb⟩
  · cases hread

end Read

end Lwip.Snmp
