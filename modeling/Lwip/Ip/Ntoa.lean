import Lwip.Ip.Inet

/-!
# Printing addresses

`inet_ntoa` of `inet.c`, which gets the digits of each octet from the last to the first, and writes
them backwards. There are no leading zeros, so `inet_aton` takes only the number zero for an octal
one, and reads every address back (`inetAton_inetNtoa`).
-/

namespace Lwip.Inet

/-- The loop over the digits of an octet, the last one first, as they are put in `inv`. -/
def invDigits (ap : ℕ) : List UInt8 :=
  UInt8.ofNat ('0'.toNat + ap % 10) :: if ap / 10 = 0 then [] else invDigits (ap / 10)
termination_by ap
decreasing_by omega

/-- What is written for an octet: the digits from `inv`, and a dot. -/
def octetText (o : UInt8) : List UInt8 := (invDigits o.toNat).reverse ++ ['.'.toUInt8]

/-- `inet_ntoa(addr)`: what it writes to `str`. The last dot is overwritten with a zero. -/
def inetNtoa (addr : InAddr) : Mem :=
  ([addr.o₀, addr.o₁, addr.o₂, addr.o₃].flatMap octetText).dropLast ++ [0]

/-- The decimal form of a number, without leading zeros. -/
structure Decimal (n : ℕ) (text : List UInt8) : Prop where
  ne_nil : text ≠ []
  digits : ∀ d ∈ text, isdigit d
  val : numVal 10 text = n
  head : text.head? = some '0'.toUInt8 → text = ['0'.toUInt8]

/-- The dotted decimal form of an address, with its terminator. -/
def Dotted (a : InAddr) (cp : Mem) : Prop :=
  ∃ t₀ t₁ t₂ t₃, Decimal a.o₀.toNat t₀ ∧ Decimal a.o₁.toNat t₁ ∧ Decimal a.o₂.toNat t₂ ∧
    Decimal a.o₃.toNat t₃ ∧
    cp = t₀ ++ '.'.toUInt8 :: (t₁ ++ '.'.toUInt8 :: (t₂ ++ '.'.toUInt8 :: (t₃ ++ [0])))

section Digits

variable {n : ℕ} {text : List UInt8}

/-- A digit more of a number. -/
theorem numVal_concat (base : ℕ) (ds : List UInt8) (d : UInt8) :
    numVal base (ds ++ [d]) = numVal base ds * base + digitVal d := by
  rw [numVal, List.foldl_append]
  rfl

/-- The character of a digit. -/
theorem toNat_digit (hn : n < 10) : (UInt8.ofNat ('0'.toNat + n)).toNat = 48 + n := by
  have hz : '0'.toNat = 48 := rfl
  rw [hz]
  exact UInt8.toNat_ofNat_of_lt (by rw [UInt8.size]; omega)

/-- The character of a digit is a digit. -/
theorem isdigit_digit (hn : n < 10) : isdigit (UInt8.ofNat ('0'.toNat + n)) := by
  rw [isdigit_iff, toNat_digit hn]
  omega

/-- The character of a digit has its value. -/
theorem digitVal_digit (hn : n < 10) : digitVal (UInt8.ofNat ('0'.toNat + n)) = n := by
  have hz : '0'.toNat = 48 := rfl
  rw [digitVal_of_isdigit (isdigit_digit hn), toNat_digit hn, hz]
  omega

/-- The digits are those of the decimal form. The induction follows the loop. -/
theorem decimal_invDigits (n : ℕ) : Decimal n (invDigits n).reverse := by
  induction n using invDigits.induct with
  | case1 n ih =>
    have hlt : n % 10 < 10 := Nat.mod_lt n (by decide)
    rw [invDigits, List.reverse_cons]
    by_cases hzero : n / 10 = 0
    · -- A single digit, which may be zero.
      rw [if_pos hzero, List.reverse_nil, List.nil_append]
      refine ⟨List.cons_ne_nil _ _, ?_, ?_, fun h => ?_⟩
      · rw [List.forall_mem_singleton]
        exact isdigit_digit hlt
      · have hval := numVal_concat 10 [] (UInt8.ofNat ('0'.toNat + n % 10))
        rw [digitVal_digit hlt, List.nil_append] at hval
        rw [hval, numVal, List.foldl_nil]
        omega
      · rw [Option.some_inj.mp h]
    · rw [if_neg hzero]
      obtain ⟨hne, hdigits, hval, hhead⟩ := ih hzero
      refine ⟨List.append_ne_nil_of_right_ne_nil _ (List.cons_ne_nil _ _), ?_, ?_, fun h => ?_⟩
      · rw [List.forall_mem_append, List.forall_mem_singleton]
        exact ⟨hdigits, isdigit_digit hlt⟩
      · rw [numVal_concat, hval, digitVal_digit hlt]
        omega
      · -- The digits in front would be a zero.
        rw [List.head?_append_of_ne_nil _ hne] at h
        rw [hhead h] at hval
        exact absurd hval.symm hzero

/-- The scratch buffer holds the digits of an octet. -/
theorem length_invDigits_le (hn : n < 256) : (invDigits n).length ≤ 3 := by
  have hstep : ∀ {n k : ℕ}, (n / 10 ≠ 0 → (invDigits (n / 10)).length ≤ k) →
      (invDigits n).length ≤ k + 1 := by
    intro n k h
    rw [invDigits, List.length_cons]
    split
    · exact Nat.le_add_left 1 k
    · next hne => exact Nat.succ_le_succ (h hne)
  refine hstep fun _ => hstep fun _ => hstep fun hne => absurd ?_ hne
  omega

/-- A decimal form is a number as `inet_aton` reads it. Only zero is an octal one. -/
theorem Decimal.spelled (h : Decimal n text) :
    ∃ num : Numeral, num.Spelled text ∧ num.Proper ∧ num.val = n := by
  obtain ⟨hne, hdigits, hval, hhead⟩ := h
  obtain ⟨c, ds, rfl⟩ := List.exists_cons_of_ne_nil hne
  obtain ⟨hc, hds⟩ := List.forall_mem_cons.mp hdigits
  by_cases hzero : c = '0'.toUInt8
  · subst hzero
    obtain rfl : ds = [] := (List.cons.inj (hhead rfl)).2
    exact ⟨_, .octal nofun, ⟨nofun, nofun⟩, hval⟩
  · refine ⟨_, .decimal hc hzero hds, ⟨fun d hd => ?_, nofun⟩, hval⟩
    have hd := hdigits d hd
    have hle := isdigit_iff.mp hd
    have hz : '0'.toNat = 48 := rfl
    dsimp only
    rw [digitVal_of_isdigit hd, hz]
    omega

end Digits

/-- Four octets, from their value. -/
theorem htonl_octets (a : InAddr) :
    htonl (a.o₀.toNat * 256^3 + (a.o₁.toNat * 256^2 + (a.o₂.toNat * 256^1 + a.o₃.toNat))) = a := by
  have h₀ := a.o₀.toNat_lt
  have h₁ := a.o₁.toNat_lt
  have h₂ := a.o₂.toNat_lt
  have h₃ := a.o₃.toNat_lt
  obtain ⟨o₀, o₁, o₂, o₃⟩ := a
  rw [htonl, InAddr.mk.injEq]
  refine ⟨?_, ?_, ?_, ?_⟩
  all_goals
    apply UInt8.toNat_inj.mp
    rw [UInt8.toNat_ofNat']
    dsimp only at *
    omega

/-- The dotted decimal form of an address denotes that address. -/
theorem Dotted.denotes {a : InAddr} {cp : Mem} (h : Dotted a cp) : Denotes cp a := by
  obtain ⟨t₀, t₁, t₂, t₃, h₀, h₁, h₂, h₃, rfl⟩ := h
  obtain ⟨n₀, hs₀, hp₀, hv₀⟩ := h₀.spelled
  obtain ⟨n₁, hs₁, hp₁, hv₁⟩ := h₁.spelled
  obtain ⟨n₂, hs₂, hp₂, hv₂⟩ := h₂.spelled
  obtain ⟨n₃, hs₃, hp₃, hv₃⟩ := h₃.spelled
  have hscan := ((Scan.last hs₃ (.inl rfl : Ends [0])).dot hs₂ |>.dot hs₁).dot hs₀
  refine ⟨_, _, hscan, by simp, ?_, hp₃, ?_, ?_⟩
  · simp only [List.forall_mem_cons]
    rw [hv₀, hv₁, hv₂]
    exact ⟨⟨hp₀, a.o₀.toNat_lt⟩, ⟨hp₁, a.o₁.toNat_lt⟩, ⟨hp₂, a.o₂.toNat_lt⟩, nofun⟩
  · rw [hv₃]
    exact a.o₃.toNat_lt
  · simp only [addrVal, hv₀, hv₁, hv₂, hv₃]
    exact (htonl_octets a).symm

/-- What is written is the dotted decimal form, in at most sixteen bytes, and is read back. -/
theorem inetAton_inetNtoa (a : InAddr) :
    (inetNtoa a).length ≤ 16 ∧ Dotted a (inetNtoa a) ∧ inetAton (inetNtoa a) = some a := by
  have hdotted : Dotted a (inetNtoa a) := by
    refine ⟨_, _, _, _, decimal_invDigits _, decimal_invDigits _, decimal_invDigits _,
      decimal_invDigits _, ?_⟩
    -- The last dot is the last character.
    have htext : [a.o₀, a.o₁, a.o₂, a.o₃].flatMap octetText =
        ((invDigits a.o₀.toNat).reverse ++ '.'.toUInt8 :: ((invDigits a.o₁.toNat).reverse ++
          '.'.toUInt8 :: ((invDigits a.o₂.toNat).reverse ++
            '.'.toUInt8 :: (invDigits a.o₃.toNat).reverse))) ++ ['.'.toUInt8] := by
      simp only [octetText, List.flatMap_cons, List.flatMap_nil, List.append_nil, List.append_assoc,
        List.cons_append, List.nil_append]
    rw [inetNtoa, htext, List.dropLast_concat]
    simp only [List.append_assoc, List.cons_append]
  refine ⟨?_, hdotted, hdotted.denotes.inetAton⟩
  have hlen : ∀ o : UInt8, (octetText o).length ≤ 4 := by
    intro o
    rw [octetText, List.length_append, List.length_reverse]
    exact Nat.succ_le_succ (length_invDigits_le o.toNat_lt)
  have h₀ := hlen a.o₀
  have h₁ := hlen a.o₁
  have h₂ := hlen a.o₂
  have h₃ := hlen a.o₃
  simp only [inetNtoa, List.flatMap_cons, List.flatMap_nil, List.append_nil, List.length_append,
    List.length_dropLast, List.length_singleton]
  have hpos : 0 < (octetText a.o₃).length := by
    rw [octetText, List.length_append]
    exact Nat.succ_pos _
  omega

end Lwip.Inet
