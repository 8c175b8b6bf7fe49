import Lwip.Arch
import Lwip.Lib.Octets

/-!
# Addresses as text

`inet_aton` and `inet_ntoa` of `inet.c`. The scanner takes numbers apart by their first characters,
and reads on as long as there are digits (`number_eq`). What it takes for an address is therefore an
address apart from four things that it does not look at (`inetAton_right_iff`): digits above 7 in an
octal number, hexadecimal numbers without a digit, numbers above 255 in front of a dot, and what
overflows 32 bits.
-/

namespace Lwip.Inet

/-- `struct in_addr`, the octets of `s_addr` as they are in memory. -/
structure InAddr where
  o₀ : UInt8
  o₁ : UInt8
  o₂ : UInt8
  o₃ : UInt8
  deriving DecidableEq, Repr

/-- `htonl(val)`: the most significant octet comes first in memory. -/
def htonl (val : ℕ) : InAddr :=
  ⟨UInt8.ofNat (val / 2^24), UInt8.ofNat (val / 2^16), UInt8.ofNat (val / 2^8), UInt8.ofNat val⟩

/-! ## Characters -/

/-- `isdigit(c)`. -/
def isdigit (c : UInt8) : Bool := '0'.toUInt8 ≤ c && c ≤ '9'.toUInt8

/-- `isxdigit(c)`. -/
def isxdigit (c : UInt8) : Bool :=
  isdigit c || ('a'.toUInt8 ≤ c && c ≤ 'f'.toUInt8) || ('A'.toUInt8 ≤ c && c ≤ 'F'.toUInt8)

/-- `islower(c)`. -/
def islower (c : UInt8) : Bool := 'a'.toUInt8 ≤ c && c ≤ 'z'.toUInt8

/-- `isspace(c)`: blank, form feed, line feed, carriage return and the two tabs. -/
def isspace (c : UInt8) :
    Bool := c == 0x20 || c == 0x0c || c == 0x0a || c == 0x0d || c == 0x09 || c == 0x0b

/-! ## `inet_aton` -/

/-- The inner loop: `val` and the rest of the string behind the digits. The shifted `val` has no
bits in common with the hexadecimal digit. -/
def digits (base val : ℕ) : Mem → ℕ × Mem
  | c :: cp =>
    if isdigit c then digits base ((val * base + (c.toNat - '0'.toNat)) % 2^32) cp
    else if base = 16 && isxdigit c then
      digits base (val * 2^4 % 2^32 +
        (c.toNat + 10 - if islower c then 'a'.toNat else 'A'.toNat)) cp
    else (val, c :: cp)
  | [] => (val, [])

/-- Collects a number: `0x` for hexadecimal, `0` for octal, `1` to `9` for decimal. -/
def number : Mem → ℕ × Mem
  | c :: cp =>
    if c = '0'.toUInt8 then
      match cp with
      | x :: cp' => if x = 'x'.toUInt8 ∨ x = 'X'.toUInt8 then digits 16 0 cp'
        else digits 8 0 (x :: cp')
      | [] => digits 8 0 []
    else digits 10 0 (c :: cp)
  | [] => (0, [])

/-- The outer loop: the numbers in front of the dots, the last number, and the rest. The first
argument is the room in `parts`. A string ends with a zero, or where its memory ends. -/
def collect (room : ℕ) (parts : List ℕ) (cp : Mem) : Option (List ℕ × ℕ × Mem) :=
  if !isdigit (cp.headD 0) then none
  else
    match number cp with
    | (val, []) => some (parts, val, [])
    | (val, c :: cp) =>
      if c = '.'.toUInt8 then
        match room with
        | 0 => none
        | room + 1 => collect room (parts ++ [val]) cp
      else some (parts, val, c :: cp)

/-- Concocts the address according to the number of parts. -/
def concoct : List ℕ → ℕ → Option ℕ
  | [], val => some val
  | [p₀], val => if val > 0xffffff then none else some (val ||| p₀ <<< 24 % 2^32)
  | [p₀, p₁], val => if val > 0xffff then none
    else some (val ||| (p₀ <<< 24 % 2^32 ||| p₁ <<< 16 % 2^32))
  | [p₀, p₁, p₂], val =>
    if val > 0xff then none
    else some (val ||| (p₀ <<< 24 % 2^32 ||| p₁ <<< 16 % 2^32 ||| p₂ <<< 8 % 2^32))
  | _, _ => none

/-- `inet_aton(cp, addr)`: what it stores in `addr` when it returns 1. -/
def inetAton (cp : Mem) : Option InAddr :=
  match collect 3 [] cp with
  | none => none
  | some (parts, val, rest) =>
    if rest.headD 0 ≠ 0 ∧ !isspace (rest.headD 0) then none else (concoct parts val).map htonl

/-! ## The grammar -/

/-- A number, given by its base and its digits. -/
structure Numeral where
  base : ℕ
  digits : List UInt8

/-- The value of a digit. -/
def digitVal (c : UInt8) : ℕ :=
  if isdigit c then c.toNat - '0'.toNat
  else if islower c then c.toNat - 'a'.toNat + 10 else c.toNat - 'A'.toNat + 10

/-- The value of digits, the most significant first. -/
def numVal (base : ℕ) (ds : List UInt8) : ℕ := ds.foldl (fun v c => v * base + digitVal c) 0

namespace Numeral

/-- The value of a number. -/
def val (n : Numeral) : ℕ := numVal n.base n.digits

/-- A number and its text, up to its digits. -/
inductive Spelled : Numeral → List UInt8 → Prop where
  | decimal {c : UInt8} {ds : List UInt8} : isdigit c → c ≠ '0'.toUInt8 → (∀ d ∈ ds, isdigit d) →
    Spelled ⟨10, c :: ds⟩ (c :: ds)
  | octal {ds : List UInt8} : (∀ d ∈ ds, isdigit d) → Spelled ⟨8, ds⟩ ('0'.toUInt8 :: ds)
  | hex {x : UInt8} {ds : List UInt8} : x = 'x'.toUInt8 ∨ x = 'X'.toUInt8 → (∀ d ∈ ds, isxdigit d) →
    Spelled ⟨16, ds⟩ ('0'.toUInt8 :: x :: ds)

/-- The digits are digits of the base, and a hexadecimal number has one. -/
structure Proper (n : Numeral) : Prop where
  digits : ∀ d ∈ n.digits, digitVal d < n.base
  ne_nil : n.base = 16 → n.digits ≠ []

end Numeral

/-- White space and anything may follow an address in its string. -/
def Ends (rest : Mem) : Prop := rest.headD 0 = 0 ∨ isspace (rest.headD 0)

/-- A string of numbers separated by dots: those in front of a dot, and the last one. -/
inductive Scan : Mem → List Numeral → Numeral → Prop where
  | last {n : Numeral} {text : List UInt8} {rest : Mem} : n.Spelled text → Ends rest →
    Scan (text ++ rest) [] n
  | dot {n last : Numeral} {text : List UInt8} {cp : Mem} {lead : List Numeral} : n.Spelled text →
    Scan cp lead last → Scan (text ++ '.'.toUInt8 :: cp) (n :: lead) last

/-- The value of an address: each number in front of a dot is one octet, the last one is the
rest. -/
def addrVal : ℕ → List Numeral → Numeral → ℕ
  | k, n :: lead, last => n.val * 256^k + addrVal (k - 1) lead last
  | _, [], last => last.val

/-- The string is the address `a` in one of the forms `a`, `a.b`, `a.b.c` and `a.b.c.d`. -/
def Denotes (cp : Mem) (a : InAddr) : Prop :=
  ∃ lead last, Scan cp lead last ∧ lead.length ≤ 3 ∧ (∀ n ∈ lead, n.Proper ∧ n.val < 256) ∧
    last.Proper ∧ last.val < 256^(4 - lead.length) ∧ a = htonl (addrVal 3 lead last)

/-- `inet_aton` accepts addresses, with their values, and nothing else. -/
def AtonRight (cp : Mem) : Prop := ∀ a, inetAton cp = some a ↔ Denotes cp a

/-- If the string looks like an address by its numbers and the low 32 bits of the last one, the
numbers are proper, those in front of a dot are octets, and the last one has 32 bits. -/
def Scrupulous (cp : Mem) : Prop :=
  ∀ lead last, Scan cp lead last → lead.length ≤ 3 → last.val % 2^32 < 256^(4 - lead.length) →
    (∀ n ∈ lead, n.Proper ∧ n.val < 256) ∧ last.Proper ∧ last.val < 2^32

/-! ## The scanner -/

section Scanner

variable {base v room : ℕ} {c : UInt8} {cp rest text : Mem} {n last : Numeral} {lead : List Numeral}
  {parts : List ℕ}

/-- The characters that the inner loop goes over. -/
def accepts (base : ℕ) (c : UInt8) : Bool := isdigit c || (base = 16 && isxdigit c)

/-- The decimal digits by their codes. -/
theorem isdigit_iff : isdigit c ↔ 48 ≤ c.toNat ∧ c.toNat ≤ 57 := by
  simp only [isdigit, Bool.and_eq_true, decide_eq_true_eq, UInt8.le_iff_toNat_le]
  rfl

/-- The hexadecimal digits by their codes. -/
theorem isxdigit_iff : isxdigit c ↔ isdigit c ∨ 97 ≤ c.toNat ∧ c.toNat ≤ 102 ∨ 65 ≤ c.toNat ∧
    c.toNat ≤ 70 := by
  simp only [isxdigit, Bool.or_eq_true, Bool.and_eq_true, decide_eq_true_eq,
    UInt8.le_iff_toNat_le, or_assoc]
  rfl

/-- The small letters by their codes. -/
theorem islower_iff : islower c ↔ 97 ≤ c.toNat ∧ c.toNat ≤ 122 := by
  simp only [islower, Bool.and_eq_true, decide_eq_true_eq, UInt8.le_iff_toNat_le]
  rfl

/-- The value of the digit that the scanner adds. -/
theorem digitVal_of_isdigit (h : isdigit c) : digitVal c = c.toNat - '0'.toNat := if_pos h

/-- The value of a hexadecimal letter. -/
theorem digitVal_of_isxdigit (hx : isxdigit c) (hd : isdigit c = false) :
    digitVal c = (c.toNat + 10 - if islower c then 'a'.toNat else 'A'.toNat) ∧ digitVal c < 16 := by
  have hx := isxdigit_iff.mp hx
  rw [hd, or_iff_right Bool.false_ne_true] at hx
  have hl := islower_iff (c := c)
  have ha : 'a'.toNat = 97 := rfl
  have hA : 'A'.toNat = 65 := rfl
  rw [digitVal, if_neg (by rw [hd]; exact Bool.false_ne_true), ha, hA]
  split
  · next h =>
    have := hl.mp h
    omega
  · next h =>
    have := mt hl.mpr h
    omega

/-- The inner loop reads the digits up to the first other character, modulo `2^32`. -/
theorem digits_eq (base v : ℕ) (cp : Mem) :
    digits base (v % 2^32) cp =
      ((cp.takeWhile (accepts base)).foldl (fun v c => v * base + digitVal c) v % 2^32,
        cp.dropWhile (accepts base)) := by
  induction cp generalizing v with
  | nil => rfl
  | cons c cp ih =>
    rw [digits]
    by_cases hd : isdigit c
    · -- Multiplied by the base, as a `u32_t`.
      have hacc : accepts base c := by rw [accepts, hd, Bool.true_or]
      have hmod : (v % 2^32 * base + (c.toNat - '0'.toNat)) % 2^32 =
          (v * base + digitVal c) % 2^32 := by
        rw [digitVal_of_isdigit hd, Nat.add_mod, Nat.mod_mul_mod, ← Nat.add_mod]
      rw [if_pos hd, hmod, ih, List.takeWhile_cons_of_pos hacc, List.dropWhile_cons_of_pos hacc,
        List.foldl_cons]
    · rw [if_neg hd]
      rw [Bool.not_eq_true] at hd
      by_cases hx : (decide (base = 16) && isxdigit c) = true
      · -- Shifted by four bits: the digit goes into zeros, so it cannot overflow.
        have hacc : accepts base c := by rw [accepts, hx, Bool.or_true]
        obtain ⟨hbase, hx'⟩ := (Bool.and_eq_true _ _).mp hx
        rw [decide_eq_true_eq] at hbase
        obtain ⟨hval, hlt⟩ := digitVal_of_isxdigit hx' hd
        have hmod : v % 2^32 * 2^4 % 2^32 + digitVal c = (v * base + digitVal c) % 2^32 := by
          rw [hbase]
          omega
        rw [if_pos hx, ← hval, hmod, ih, List.takeWhile_cons_of_pos hacc,
          List.dropWhile_cons_of_pos hacc, List.foldl_cons]
      · -- The number ends here.
        have hacc : ¬ accepts base c := by
          rw [accepts, hd, Bool.false_or]
          exact hx
        rw [if_neg hx, List.takeWhile_cons_of_neg hacc, List.dropWhile_cons_of_neg hacc]
        rfl

/-- The number scanned ends here. -/
def Stops (rest : Mem) : Prop :=
  ∀ c ∈ rest.head?, isxdigit c = false ∧ c ≠ 'x'.toUInt8 ∧ c ≠ 'X'.toUInt8

/-- A dot stops a number. -/
theorem stops_dot (cp : Mem) : Stops ('.'.toUInt8 :: cp) := by
  intro c hc
  obtain rfl := Option.some_inj.mp hc
  decide

/-- The end of the string stops a number. -/
theorem Ends.stops (h : Ends rest) : Stops rest := by
  cases rest with
  | nil => exact nofun
  | cons c rest =>
    intro d hd
    obtain rfl := Option.some_inj.mp hd
    rcases h with h | h
    · have hc : c = 0 := h
      subst hc
      decide
    · change isspace c = true at h
      simp only [isspace, Bool.or_eq_true, beq_iff_eq] at h
      rcases h with ((((rfl | rfl) | rfl) | rfl) | rfl) | rfl <;> decide

/-- The digits of a number, and what is behind them. -/
theorem takeWhile_stops {ds : List UInt8} (base : ℕ) (hds : ∀ d ∈ ds, accepts base d)
    (hrest : Stops rest) :
    (ds ++ rest).takeWhile (accepts base) = ds ∧ (ds ++ rest).dropWhile (accepts base) = rest := by
  rw [List.takeWhile_append_of_pos hds, List.dropWhile_append_of_pos hds]
  cases rest with
  | nil => exact ⟨List.append_nil _, rfl⟩
  | cons c rest =>
    obtain ⟨hx, -⟩ := hrest c rfl
    have hd : isdigit c = false := by
      rw [isxdigit, Bool.or_assoc, Bool.or_eq_false_iff] at hx
      exact hx.1
    have hacc : ¬ accepts base c := by
      rw [accepts, hd, hx, Bool.and_false]
      exact Bool.false_ne_true
    rw [List.takeWhile_cons_of_neg hacc, List.dropWhile_cons_of_neg hacc]
    exact ⟨List.append_nil _, rfl⟩

/-- A decimal digit is accepted with every base. -/
theorem accepts_of_isdigit (base : ℕ) (h : isdigit c) :
    accepts base c := by rw [accepts, h, Bool.true_or]

/-- With the base 16 the hexadecimal digits are accepted. -/
theorem accepts_sixteen : accepts 16 c ↔ isxdigit c := by
  rw [accepts, decide_eq_true rfl, Bool.true_and, isxdigit, Bool.or_assoc, Bool.or_self_left]

/-- A decimal or octal number has no other digits. -/
theorem isdigit_of_accepts (hbase : base ≠ 16) (h : accepts base c) : isdigit c := by
  rwa [accepts, decide_eq_false hbase, Bool.false_and, Bool.or_false] at h

/-- The inner loop from the start of the digits. -/
theorem digits_zero (base : ℕ) (cp : Mem) :
    digits base 0 cp = (numVal base (cp.takeWhile (accepts base)) % 2^32, cp.dropWhile
    (accepts base)) :=
  digits_eq base 0 cp

/-- A number without a leading zero is decimal. -/
theorem number_decimal (hc : c ≠ '0'.toUInt8) : number (c :: cp) = digits 10 0 (c :: cp) := by
  rw [number.eq_def]
  exact if_neg hc

/-- A number behind `0x` is hexadecimal. -/
theorem number_hex {x : UInt8} (hx : x = 'x'.toUInt8 ∨ x = 'X'.toUInt8) :
    number ('0'.toUInt8 :: x :: cp) = digits 16 0 cp := by
  rw [number.eq_def]
  exact (if_pos rfl).trans (if_pos hx)

/-- A number behind `0` is octal. -/
theorem number_octal (h : ∀ x ∈ cp.head?, x ≠ 'x'.toUInt8 ∧ x ≠ 'X'.toUInt8) :
    number ('0'.toUInt8 :: cp) = digits 8 0 cp := by
  cases cp with
  | nil => rfl
  | cons x cp =>
    rw [number.eq_def]
    exact (if_pos rfl).trans (if_neg (not_or.mpr (h x rfl)))

/-- A digit is not the sign of a hexadecimal number. -/
theorem ne_x_of_isdigit (h : isdigit c) : c ≠ 'x'.toUInt8 ∧ c ≠ 'X'.toUInt8 := by
  constructor
  · rintro rfl
    exact absurd h (by decide)
  · rintro rfl
    exact absurd h (by decide)

/-- A number is read as it is spelled. -/
theorem number_of_spelled (h : n.Spelled text) (hrest : Stops rest) :
    number (text ++ rest) = (n.val % 2^32, rest) := by
  cases h with
  | @decimal c ds hc hne hds =>
    have hall : ∀ d ∈ c :: ds, accepts 10 d :=
      List.forall_mem_cons.mpr ⟨accepts_of_isdigit 10 hc,
        fun d hd => accepts_of_isdigit 10 (hds d hd)⟩
    obtain ⟨htake, hdrop⟩ := takeWhile_stops 10 hall hrest
    rw [List.cons_append] at htake hdrop ⊢
    rw [number_decimal hne, digits_zero, htake, hdrop]
    rfl
  | @octal ds hds =>
    -- What is behind the `0` is not an `x`, be it a digit or the end.
    obtain ⟨htake, hdrop⟩ := takeWhile_stops 8 (fun d hd => accepts_of_isdigit 8 (hds d hd)) hrest
    have hx : ∀ x ∈ (ds ++ rest).head?, x ≠ 'x'.toUInt8 ∧ x ≠ 'X'.toUInt8 := by
      cases ds with
      | nil => exact fun x hx => (hrest x hx).2
      | cons d ds =>
        intro x hx
        obtain rfl := Option.some_inj.mp hx
        exact ne_x_of_isdigit (hds d List.mem_cons_self)
    rw [List.cons_append, number_octal hx, digits_zero, htake, hdrop]
    rfl
  | @hex x ds hx hds =>
    obtain ⟨htake, hdrop⟩ := takeWhile_stops 16 (fun d hd => accepts_sixteen.mpr (hds d hd)) hrest
    rw [List.cons_append, List.cons_append, number_hex hx, digits_zero, htake, hdrop]
    rfl

/-- What is taken satisfies the test. -/
theorem forall_takeWhile (p : UInt8 → Bool) (cp : Mem) : ∀ d ∈ cp.takeWhile p, p d :=
  List.all_eq_true.mp List.all_takeWhile

/-- From a digit on, the scanner reads some number. -/
theorem exists_spelled (h : isdigit (cp.headD 0)) :
    ∃ n text, Numeral.Spelled n text ∧ cp = text ++ (number cp).2 ∧
    (number cp).1 = n.val % 2^32 := by
  cases cp with
  | nil => exact absurd h (by decide)
  | cons c cp =>
    by_cases hc : c = '0'.toUInt8
    · -- The base is decided by the next character.
      subst hc
      by_cases hx : ∀ x ∈ cp.head?, x ≠ 'x'.toUInt8 ∧ x ≠ 'X'.toUInt8
      · rw [number_octal hx, digits_zero]
        have hall : ∀ d ∈ cp.takeWhile (accepts 8), isdigit d := fun d hd =>
          isdigit_of_accepts (by decide) (forall_takeWhile _ cp d hd)
        refine ⟨_, _, .octal hall, ?_, rfl⟩
        rw [List.cons_append, List.takeWhile_append_dropWhile]
      · push Not at hx
        obtain ⟨x, hhead, hx⟩ := hx
        obtain ⟨cp, rfl⟩ : ∃ cp', cp = x :: cp' := List.head?_eq_some_iff.mp hhead
        rw [number_hex (or_iff_not_imp_left.mpr hx), digits_zero]
        have hall : ∀ d ∈ cp.takeWhile (accepts 16), isxdigit d := fun d hd =>
          accepts_sixteen.mp (forall_takeWhile _ cp d hd)
        refine ⟨_, _, .hex (or_iff_not_imp_left.mpr hx) hall, ?_, rfl⟩
        rw [List.cons_append, List.cons_append, List.takeWhile_append_dropWhile]
    · have hd : isdigit c := h
      have hacc : accepts 10 c := accepts_of_isdigit 10 hd
      rw [number_decimal hc, digits_zero, List.takeWhile_cons_of_pos hacc,
        List.dropWhile_cons_of_pos hacc]
      have hall : ∀ d ∈ cp.takeWhile (accepts 10), isdigit d := fun d hd =>
        isdigit_of_accepts (by decide) (forall_takeWhile _ cp d hd)
      refine ⟨_, _, .decimal hd hc hall, ?_, rfl⟩
      rw [List.cons_append, List.takeWhile_append_dropWhile]

/-- A number starts with a digit. -/
theorem Numeral.Spelled.isdigit_head (h : n.Spelled text) : isdigit ((text ++ rest).headD 0) := by
  cases h with
  | decimal hc => exact hc
  | octal => exact (by decide : isdigit '0'.toUInt8)
  | hex => exact (by decide : isdigit '0'.toUInt8)

/-- The text of a number is that of no other one. -/
theorem Numeral.Spelled.inj {n' : Numeral} (h : n.Spelled text)
    (h' : n'.Spelled text) : n = n' := by
  cases h with
  | decimal hc hne hds =>
    cases h' with
    | decimal => rfl
    | octal => exact absurd rfl hne
    | hex => exact absurd rfl hne
  | octal hds =>
    cases h' with
    | decimal _ hne => exact absurd rfl hne
    | octal => rfl
    | @hex x _ hx =>
      have hd := hds x List.mem_cons_self
      rcases hx with rfl | rfl
      · exact absurd hd (by decide)
      · exact absurd hd (by decide)
  | @hex x _ hx =>
    cases h' with
    | decimal _ hne => exact absurd rfl hne
    | octal hds =>
      have hd := hds x List.mem_cons_self
      rcases hx with rfl | rfl
      · exact absurd hd (by decide)
      · exact absurd hd (by decide)
    | hex => rfl

/-- A number and what is behind it are found in one way. -/
theorem Numeral.Spelled.append_inj {n' : Numeral} {text' rest' : Mem} (h : n.Spelled text)
    (h' : n'.Spelled text') (hrest : Stops rest) (hrest' : Stops rest')
    (heq : text ++ rest = text' ++ rest') : n = n' ∧ rest = rest' := by
  have hnum := number_of_spelled h hrest
  rw [heq, number_of_spelled h' hrest'] at hnum
  obtain rfl : rest' = rest := congrArg Prod.snd hnum
  obtain rfl := List.append_cancel_right heq
  exact ⟨h.inj h', rfl⟩

/-- A dot is not the end. -/
theorem not_ends_dot : ¬ Ends ('.'.toUInt8 :: cp) := by
  rintro (h | h)
  · exact absurd h (by decide : '.'.toUInt8 ≠ 0)
  · exact absurd h (by decide : ¬ isspace '.'.toUInt8)

/-- A string is taken apart in one way. -/
theorem Scan.unique {lead' : List Numeral} {last' : Numeral} (h : Scan cp lead last)
    (h' : Scan cp lead' last') : lead = lead' ∧ last = last' := by
  induction h generalizing lead' last' with
  | @last n text rest hn hends =>
    generalize hcp : text ++ rest = cp at h'
    cases h' with
    | last hn' hends' => exact ⟨rfl, (hn.append_inj hn' hends.stops hends'.stops hcp).1⟩
    | dot hn' =>
      -- A dot does not end a string.
      obtain ⟨-, rfl⟩ := hn.append_inj hn' hends.stops (stops_dot _) hcp
      exact absurd hends not_ends_dot
  | @dot n last text cp' lead hn hscan ih =>
    generalize hcp : text ++ '.'.toUInt8 :: cp' = cp at h'
    cases h' with
    | last hn' hends' =>
      obtain ⟨-, rfl⟩ := hn.append_inj hn' (stops_dot _) hends'.stops hcp
      exact absurd hends' not_ends_dot
    | dot hn' hscan' =>
      obtain ⟨rfl, hrest⟩ := hn.append_inj hn' (stops_dot _) (stops_dot _) hcp
      obtain ⟨-, rfl⟩ := List.cons.inj hrest
      obtain ⟨rfl, rfl⟩ := ih hscan'
      exact ⟨rfl, rfl⟩

/-- The numbers of a string are collected as long as there is room for them. -/
theorem Scan.collect (h : Scan cp lead last) (hroom : lead.length ≤ room) (parts : List ℕ) :
    ∃ rest, Ends rest ∧ Inet.collect room parts cp =
      some (parts ++ lead.map fun n => n.val % 2^32, last.val % 2^32, rest) := by
  induction h generalizing room parts with
  | @last n text rest hn hends =>
    refine ⟨rest, hends, ?_⟩
    have hnum := number_of_spelled hn hends.stops
    rw [Inet.collect, hn.isdigit_head, Bool.not_true, if_neg Bool.false_ne_true, hnum, List.map_nil,
      List.append_nil]
    cases rest with
    | nil => rfl
    | cons c rest =>
      dsimp only
      rw [if_neg]
      rintro rfl
      exact not_ends_dot hends
  | @dot n last text cp lead hn hscan ih =>
    have hnum := number_of_spelled hn (stops_dot cp)
    rw [List.length_cons] at hroom
    obtain ⟨room, rfl⟩ : ∃ k, room = k + 1 := ⟨room - 1, by omega⟩
    obtain ⟨rest, hends, hcollect⟩ := ih (Nat.le_of_succ_le_succ hroom) (parts ++ [n.val % 2^32])
    refine ⟨rest, hends, ?_⟩
    rw [Inet.collect, hn.isdigit_head, Bool.not_true, if_neg Bool.false_ne_true, hnum]
    dsimp only
    rw [if_pos rfl, hcollect, List.append_assoc]
    rfl

/-- One round of the outer loop. -/
theorem collect_round {ps : List ℕ} (h : Inet.collect room parts cp = some (ps, v, rest)) :
    ∃ n text rest', Numeral.Spelled n text ∧ cp = text ++ rest' ∧
      (ps = parts ∧ v = n.val % 2^32 ∧ rest = rest' ∨
        ∃ room' cp', room = room' + 1 ∧ rest' = '.'.toUInt8 :: cp' ∧
          Inet.collect room' (parts ++ [n.val % 2^32]) cp' = some (ps, v, rest)) := by
  rw [Inet.collect.eq_def] at h
  split at h
  · cases h
  · next hd =>
    rw [Bool.not_eq_true', Bool.not_eq_false] at hd
    obtain ⟨n, text, hn, hcp, hval⟩ := exists_spelled hd
    refine ⟨n, text, (number cp).2, hn, hcp, ?_⟩
    rw [← hval]
    generalize number cp = x at h
    obtain ⟨val, rest'⟩ := x
    cases rest' with
    | nil =>
      cases h
      exact .inl ⟨rfl, rfl, rfl⟩
    | cons c cp' =>
      dsimp only at h
      split at h
      · next hdot =>
        cases room with
        | zero => cases h
        | succ room => exact .inr ⟨room, cp', rfl, by rw [hdot], h⟩
      · cases h
        exact .inl ⟨rfl, rfl, rfl⟩

/-- What is collected are the numbers of the string. -/
theorem scan_of_collect {ps : List ℕ} (h : Inet.collect room parts cp = some (ps, v, rest))
    (hends : Ends rest) :
    ∃ lead last, Scan cp lead last ∧ lead.length ≤ room ∧
      ps = parts ++ lead.map (fun n => n.val % 2^32) ∧ v = last.val % 2^32 := by
  induction room generalizing parts cp with
  | zero =>
    obtain ⟨n, text, rest', hn, rfl, ⟨rfl, rfl, rfl⟩ | ⟨_, _, hroom, -⟩⟩ := collect_round h
    · exact ⟨[], n, .last hn hends, Nat.le_refl _, (List.append_nil _).symm, rfl⟩
    · cases hroom
  | succ room ih =>
    obtain ⟨n, text, rest', hn, rfl, ⟨rfl, rfl, rfl⟩ | ⟨_, cp', hroom, rfl, hrest⟩⟩ :=
      collect_round h
    · exact ⟨[], n, .last hn hends, Nat.zero_le _, (List.append_nil _).symm, rfl⟩
    · obtain rfl := Nat.succ.inj hroom
      obtain ⟨lead, last, hscan, hlen, rfl, rfl⟩ := ih hrest
      refine ⟨n :: lead, last, .dot hn hscan, Nat.succ_le_succ hlen, ?_, rfl⟩
      rw [List.append_assoc]
      rfl

end Scanner

/-! ## The address -/

section Address

variable {cp : Mem} {n last : Numeral} {lead : List Numeral} {a : InAddr}

/-- The last number has to fit in what the others leave. -/
theorem concoct_isSome {ps : List ℕ} {v : ℕ} (hlen : ps.length ≤ 3) (hv : v < 2^32) :
    (∃ a, concoct ps v = some a) ↔ v < 256^(4 - ps.length) := by
  match ps with
  | [] => exact iff_of_true ⟨v, rfl⟩ hv
  | [p₀] =>
    rw [concoct]
    split <;> simp <;> omega
  | [p₀, p₁] =>
    rw [concoct]
    split <;> simp <;> omega
  | [p₀, p₁, p₂] =>
    rw [concoct]
    split <;> simp <;> omega
  | _ :: _ :: _ :: _ :: _ =>
    simp only [List.length_cons] at hlen
    omega

/-- Octets in front, one after the other. -/
theorem shiftLeft_or {p v k : ℕ} (hp : p < 256) (hk : k ≤ 24) (hv : v < 2^k) :
    v ||| p <<< k % 2^32 = p * 2^k + v := by
  have hlt : p <<< k < 2^32 := by
    rw [Nat.shiftLeft_eq]
    calc p * 2^k < 256 * 2^k := Nat.mul_lt_mul_of_pos_right hp (Nat.two_pow_pos k)
      _ ≤ 256 * 2^24 := Nat.mul_le_mul_left _ (Nat.pow_le_pow_right (by decide) hk)
  rw [Nat.mod_eq_of_lt hlt, Nat.or_comm, ← Nat.shiftLeft_add_eq_or_of_lt hv, Nat.shiftLeft_eq]

/-- With octets in front, the address is concocted by its value. -/
theorem concoct_eq (hlen : lead.length ≤ 3) (hlead : ∀ n ∈ lead, n.val < 256)
    (hlast : last.val < 256^(4 - lead.length)) :
    concoct (lead.map fun n => n.val % 2^32) (last.val % 2^32) = some (addrVal 3 lead last) := by
  have hmod : ∀ n ∈ lead, n.val % 2^32 = n.val := fun n hn =>
    Nat.mod_eq_of_lt (Nat.lt_trans (hlead n hn) (by decide))
  rw [List.map_congr_left hmod]
  match lead with
  | [] =>
    have hv : last.val < 2^32 := hlast
    rw [Nat.mod_eq_of_lt hv]
    rfl
  | [p₀] =>
    simp only [List.forall_mem_cons] at hlead
    obtain ⟨h₀, -⟩ := hlead
    have hv : last.val < 2^24 := hlast
    have hval : addrVal 3 [p₀] last = p₀.val * 2^24 + last.val := rfl
    simp only [List.map_cons, List.map_nil, concoct, hval]
    rw [Nat.mod_eq_of_lt (a := last.val) (by omega), if_neg (by omega),
      shiftLeft_or h₀ (by decide) hv]
  | [p₀, p₁] =>
    simp only [List.forall_mem_cons] at hlead
    obtain ⟨h₀, h₁, -⟩ := hlead
    have hv : last.val < 2^16 := hlast
    have hval : addrVal 3 [p₀, p₁] last = p₀.val * 2^24 + (p₁.val * 2^16 + last.val) := rfl
    simp only [List.map_cons, List.map_nil, concoct, hval]
    rw [Nat.mod_eq_of_lt (a := last.val) (by omega), if_neg (by omega), Nat.or_comm (_ % _),
      ← Nat.or_assoc, shiftLeft_or h₁ (by decide) hv, shiftLeft_or h₀ (by decide) (by omega)]
  | [p₀, p₁, p₂] =>
    simp only [List.forall_mem_cons] at hlead
    obtain ⟨h₀, h₁, h₂, -⟩ := hlead
    have hv : last.val < 2^8 := hlast
    have hval : addrVal 3 [p₀, p₁, p₂] last =
        p₀.val * 2^24 + (p₁.val * 2^16 + (p₂.val * 2^8 + last.val)) := rfl
    simp only [List.map_cons, List.map_nil, concoct, hval]
    rw [Nat.mod_eq_of_lt (a := last.val) (by omega), if_neg (by omega), Nat.or_comm (_ ||| _),
      Nat.or_comm (p₀.val <<< 24 % _), ← Nat.or_assoc, ← Nat.or_assoc,
      shiftLeft_or h₂ (by decide) hv, shiftLeft_or h₁ (by decide) (by omega),
      shiftLeft_or h₀ (by decide) (by omega)]
  | _ :: _ :: _ :: _ :: _ =>
    simp only [List.length_cons] at hlen
    omega

/-- What `inet_aton` makes of the numbers of a string. -/
theorem Scan.inetAton (h : Scan cp lead last) (hlen : lead.length ≤ 3) :
    Inet.inetAton cp = (concoct (lead.map fun n => n.val % 2^32) (last.val % 2^32)).map htonl := by
  obtain ⟨rest, hends, hcollect⟩ := h.collect hlen []
  rw [Inet.inetAton, hcollect]
  refine if_neg ?_
  rintro ⟨hne, hspace⟩
  rcases hends with h | h
  · exact hne h
  · rw [h] at hspace
    cases hspace

/-- What `inet_aton` accepts looks like an address. -/
theorem scan_of_inetAton (h : inetAton cp = some a) :
    ∃ lead last, Scan cp lead last ∧ lead.length ≤ 3 ∧ last.val % 2^32 < 256^(4 - lead.length) := by
  have hsome := h
  rw [inetAton] at h
  split at h
  · cases h
  · next parts val rest hcollect =>
    split at h
    · cases h
    · next hends =>
      have hends' : Ends rest := by
        by_contra hnot
        obtain ⟨hne, hspace⟩ := not_or.mp hnot
        exact hends ⟨hne, by simpa using hspace⟩
      obtain ⟨lead, last, hscan, hlen, rfl, rfl⟩ := scan_of_collect hcollect hends'
      refine ⟨lead, last, hscan, hlen, ?_⟩
      obtain ⟨v, hv, -⟩ := Option.map_eq_some_iff.mp h
      have hmap : (lead.map fun n => n.val % 2^32).length = lead.length := List.length_map _
      rw [List.nil_append] at hv
      have hlt := (concoct_isSome (by rw [hmap]; exact hlen) (Nat.mod_lt _ (by decide))).mp ⟨v, hv⟩
      rwa [hmap] at hlt

/-- Addresses are accepted. -/
theorem Denotes.inetAton (h : Denotes cp a) : Inet.inetAton cp = some a := by
  obtain ⟨lead, last, hscan, hlen, hlead, -, hlast, rfl⟩ := h
  rw [hscan.inetAton hlen, concoct_eq hlen (fun n hn => (hlead n hn).2) hlast]
  rfl

end Address

/-- Exactly the strings for which nothing goes wrong with a number are taken for what they are. -/
theorem inetAton_right_iff (cp : Mem) : AtonRight cp ↔ Scrupulous cp := by
  constructor
  · intro hright lead last hscan hlen hlast
    have hmap : (lead.map fun n => n.val % 2^32).length = lead.length := List.length_map _
    obtain ⟨v, hv⟩ := (concoct_isSome (by rw [hmap]; exact hlen)
      (Nat.mod_lt last.val (by decide))).mpr (by rw [hmap]; exact hlast)
    have hsome : inetAton cp = some (htonl v) := by
      rw [hscan.inetAton hlen, hv]
      rfl
    obtain ⟨lead', last', hscan', -, hlead, hproper, hlt, -⟩ := (hright _).mp hsome
    obtain ⟨rfl, rfl⟩ := hscan.unique hscan'
    refine ⟨hlead, hproper, Nat.lt_of_lt_of_le hlt ?_⟩
    calc 256^(4 - lead.length) ≤ 256^4 := Nat.pow_le_pow_right (by decide) (Nat.sub_le _ _)
      _ = 2^32 := rfl
  · intro hscrup a
    refine ⟨fun h => ?_, Denotes.inetAton⟩
    obtain ⟨lead, last, hscan, hlen, hlast⟩ := scan_of_inetAton h
    obtain ⟨hlead, hproper, hlt⟩ := hscrup lead last hscan hlen hlast
    rw [Nat.mod_eq_of_lt hlt] at hlast
    refine ⟨lead, last, hscan, hlen, hlead, hproper, hlast, ?_⟩
    rw [hscan.inetAton hlen, concoct_eq hlen (fun n hn => (hlead n hn).2) hlast] at h
    exact (Option.some_inj.mp h).symm

/-- `256.1` is accepted. -/
theorem leading_part_not_checked : ¬ AtonRight [0x32, 0x35, 0x36, 0x2e, 0x31] := by
  intro hright
  obtain ⟨lead, last, hscan, -, hlead, -⟩ := (hright ⟨0, 0, 0, 1⟩).mp (by decide)
  have hone : Numeral.Spelled ⟨10, [0x31]⟩ [0x31] :=
    .decimal (by decide +kernel) (by decide +kernel) (by decide +kernel)
  have hlead' : Numeral.Spelled ⟨10, [0x32, 0x35, 0x36]⟩ [0x32, 0x35, 0x36] :=
    .decimal (by decide +kernel) (by decide +kernel) (by decide +kernel)
  have hlast : Scan ([0x31] ++ []) [] ⟨10, [0x31]⟩ := .last hone (.inl rfl)
  have hthis : Scan [0x32, 0x35, 0x36, 0x2e, 0x31] _ _ := .dot hlead' hlast
  obtain ⟨rfl, -⟩ := hscan.unique hthis
  exact absurd (hlead _ List.mem_cons_self).2 (by decide)

end Lwip.Inet
