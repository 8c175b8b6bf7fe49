import Lwip.Dns.Message

/-!
# Names in questions

`dns_compare_name` against the encoding that `dns_send` gives a hostname. The comparison lays the
labels of the question over the hostname and skips one octet of it between two labels, without a
look at it. It comes to its end at a zero byte or a compression mark of the question, wherever it is
in the hostname then.

`dottedName` is the question with the octets that are not compared left open. The comparison finds
no difference if it agrees with the hostname (`dnsCompareName_eq`), and it is exact if it has its
open places where the hostname has its dots (`compare_exact_iff`).
-/

namespace Lwip.Dns

/-- The character `.`. -/
def DOT : UInt8 := 46

/-- The loops of `dns_send` that convert a hostname, with the octets `label` since the last dot. -/
def encodeLabels : (label name : List UInt8) → List UInt8
  | label, [] => UInt8.ofNat label.length :: label ++ [0]
  | label, c :: name =>
    if c = DOT then UInt8.ofNat label.length :: label ++ encodeLabels [] name
    else encodeLabels (label ++ [c]) name

/-- The query format of a hostname. -/
def dnsEncodeName (name : List UInt8) : List UInt8 := encodeLabels [] name

/-! ## The question as `dns_compare_name` reads it -/

/-- How the name in a question ends. -/
inductive NameEnd where
  /-- With a zero byte. -/
  | zero
  /-- With a compression mark. -/
  | mark
  /-- It does not; the memory ends. -/
  | memory
  deriving DecidableEq, Repr

/-- The end of a name, with `left` octets of a label still to come. -/
def endOf : (left : ℕ) → Mem → NameEnd
  | left + 1, _ :: response => endOf left response
  | 0, n :: response =>
    if n = 0 then .zero else if compressed n then .mark else endOf n.toNat response
  | _, [] => .memory

/-- The end of the name at the beginning of a question. -/
def endOfName : Mem → NameEnd
  | n :: response => if compressed n then .mark else endOf n.toNat response
  | [] => .memory

/-- The octets of the labels, with an open place between two labels. -/
def dotted : (left : ℕ) → Mem → List (Option UInt8)
  | left + 1, b :: response => some b :: dotted left response
  | 0, n :: response => if n = 0 ∨ compressed n then [] else none :: dotted n.toNat response
  | _, [] => []

/-- The name at the beginning of a question. -/
def dottedName : Mem → List (Option UInt8)
  | n :: response => if compressed n then [] else dotted n.toNat response
  | [] => []

/-- No octet of a label differs from the octet of the hostname that it is laid over. -/
def Agrees (query : Mem) (d : List (Option UInt8)) : Prop :=
  ∀ (k : ℕ) (b : UInt8), d[k]? = some (some b) → query[k]? = some b

/-- The labels of the question are as long as those of the hostname, and it ends with a zero
byte. -/
def SameLabels (name : List UInt8) (response : Mem) : Prop :=
  endOfName response = .zero ∧ (dottedName response).map Option.isNone = name.map (· == DOT)

instance (name : List UInt8) (response : Mem) : Decidable (SameLabels name response) := by
  unfold SameLabels
  infer_instance

/-- The first octet agrees, and so does the rest. -/
theorem agrees_cons_some {query : Mem} {b : UInt8} {d : List (Option UInt8)} :
    Agrees query (some b :: d) ↔ query.head? = some b ∧ Agrees query.tail d := by
  constructor
  · intro h
    refine ⟨?_, fun k c hk => ?_⟩
    · rw [List.head?_eq_getElem?]
      exact h 0 b rfl
    · rw [List.getElem?_tail]
      exact h (k + 1) c hk
  · rintro ⟨hb, h⟩ k c hk
    cases k with
    | zero =>
      obtain rfl := Option.some.inj (Option.some.inj hk)
      rwa [← List.head?_eq_getElem?]
    | succ k =>
      rw [← List.getElem?_tail]
      exact h k c hk

/-- An open place agrees with every octet. -/
theorem agrees_cons_none {query : Mem} {d : List (Option UInt8)} :
    Agrees query (none :: d) ↔ Agrees query.tail d := by
  constructor
  · intro h k c hk
    rw [List.getElem?_tail]
    exact h (k + 1) c hk
  · intro h k c hk
    cases k with
    | zero => cases hk
    | succ k =>
      rw [← List.getElem?_tail]
      exact h k c hk

/-- Every hostname agrees with no octets. -/
theorem agrees_nil (query : Mem) : Agrees query [] := fun _ _ hk => by simp at hk

/-- The loops of `dns_compare_name` find no difference. -/
theorem compareLabels_eq {left : ℕ} {query response : Mem} :
    compareLabels left query response = some false ↔
      endOf left response ≠ .memory ∧ Agrees query (dotted left response) := by
  induction response generalizing left query with
  | nil =>
    refine iff_of_false ?_ fun h => h.1 ?_
    · cases left <;> cases query <;> simp [compareLabels]
    · cases left <;> rfl
  | cons b response ih =>
    cases left with
    | succ left =>
      rw [endOf, dotted, agrees_cons_some]
      cases query with
      | nil => simp [compareLabels]
      | cons a query =>
        rw [compareLabels]
        by_cases hab : a = b
        · rw [if_neg (by simpa using hab), ih]
          simp [hab]
        · rw [if_pos hab]
          simp [hab]
    | zero =>
      rw [endOf, dotted, compareLabels]
      by_cases hzero : b = 0
      · simp [hzero, agrees_nil]
      · by_cases hmark : compressed b = true
        · simp [hzero, hmark, agrees_nil]
        · rw [if_neg hzero, if_neg hmark, if_neg hzero, if_neg hmark,
            if_neg (by simp [hzero, hmark]), ih, agrees_cons_none]

/-- `dns_compare_name` finds no difference. -/
theorem dnsCompareName_eq {query response : Mem} :
    dnsCompareName query response = some false ↔
      endOfName response ≠ .memory ∧ Agrees query (dottedName response) := by
  cases response with
  | nil => simp [dnsCompareName, endOfName]
  | cons n response =>
    rw [dnsCompareName, endOfName, dottedName]
    by_cases hmark : compressed n = true
    · simp [hmark, agrees_nil]
    · rw [if_neg hmark, if_neg hmark, if_neg hmark, compareLabels_eq]

/-! ## The encoding of a hostname -/

/-- The length of the first label. -/
def firstLen : List UInt8 → ℕ
  | [] => 0
  | c :: name => if c = DOT then 0 else firstLen name + 1

/-- The encoding without its first length. -/
def encodeBody : List UInt8 → List UInt8
  | [] => [0]
  | c :: name => (if c = DOT then UInt8.ofNat (firstLen name) else c) :: encodeBody name

/-- All labels but the first one have an octet, and no length is a compression mark. -/
def Plain (name : List UInt8) : Prop :=
  firstLen name < 192 ∧ ∀ rest, DOT :: rest <:+ name → 0 < firstLen rest ∧ firstLen rest < 192

/-- The first label is not longer than the name. -/
theorem firstLen_le (name : List UInt8) : firstLen name ≤ name.length := by
  induction name with
  | nil => exact Nat.le_refl _
  | cons c name ih =>
    rw [firstLen]
    split
    · exact Nat.zero_le _
    · exact Nat.succ_le_succ ih

/-- The length of the first label fits into an octet. -/
theorem toNat_firstLen {name : List UInt8} (hlen : name.length < 256) :
    (UInt8.ofNat (firstLen name)).toNat = firstLen name :=
  UInt8.toNat_ofNat_of_lt' (Nat.lt_of_le_of_lt (firstLen_le name) hlen)

/-- The labels from within a label on. -/
theorem encodeLabels_eq (label name : List UInt8) : encodeLabels label name =
    UInt8.ofNat (label.length + firstLen name) :: label ++ encodeBody name := by
  induction name generalizing label with
  | nil => rfl
  | cons c name ih =>
    rw [encodeLabels, firstLen, encodeBody]
    by_cases hdot : c = DOT
    · rw [if_pos hdot, if_pos hdot, if_pos hdot, ih [], List.length_nil, Nat.zero_add]
      rfl
    · rw [if_neg hdot, if_neg hdot, if_neg hdot, ih]
      simp [Nat.add_assoc, Nat.add_comm 1]

/-- The encoding of a name. -/
theorem dnsEncodeName_eq (name : List UInt8) :
    dnsEncodeName name = UInt8.ofNat (firstLen name) :: encodeBody name := by
  rw [dnsEncodeName, encodeLabels_eq, List.length_nil, Nat.zero_add]
  rfl

section

variable {name : List UInt8} {left : ℕ} {response : Mem}

/-- The comparison of a hostname with its encoding finds no difference. -/
theorem compareLabels_encodeBody (hlen : name.length < 256) (nameAfter tail : Mem) :
    compareLabels (firstLen name) (name ++ 0 :: nameAfter) (encodeBody name ++ tail) =
    some false := by
  induction name with
  | nil => rfl
  | cons c name ih =>
    rw [List.length_cons] at hlen
    have hrest := ih (by omega)
    rw [firstLen, encodeBody]
    by_cases hdot : c = DOT
    · rw [if_pos hdot, if_pos hdot, List.cons_append, List.cons_append, compareLabels]
      split
      · rfl
      · split
        · rfl
        · rw [toNat_firstLen (by omega)]
          exact hrest
    · rw [if_neg hdot, if_neg hdot, List.cons_append, List.cons_append, compareLabels,
        if_neg (by simp)]
      exact hrest

/-- The encoding of a name is found to be this name. -/
theorem dnsCompareName_encode (hlen : name.length < 256) (nameAfter : Mem)
    (h : dnsEncodeName name <+: response) :
    dnsCompareName (name ++ 0 :: nameAfter) response = some false := by
  obtain ⟨tail, rfl⟩ := h
  rw [dnsEncodeName_eq, List.cons_append, dnsCompareName]
  split
  · rfl
  · rw [toNat_firstLen hlen]
    exact compareLabels_encodeBody hlen nameAfter tail

/-- When the labels have the same lengths and no difference is found, the rest of the question is
that of the encoding. -/
theorem encodeBody_of_compareLabels {after : Mem} (hend : endOf left response = .zero)
    (hdots : (dotted left response).map Option.isNone = name.map (· == DOT))
    (hcmp : Agrees (name ++ after) (dotted left response)) :
    left = firstLen name ∧ encodeBody name <+: response := by
  induction response generalizing left name with
  | nil => cases left <;> cases hend
  | cons n response ih =>
    cases left with
    | succ left =>
      rw [dotted] at hdots hcmp
      cases name with
      | nil => cases hdots
      | cons c name =>
        obtain ⟨hdot, hrest⟩ := List.cons.inj hdots
        obtain ⟨hhead, htail⟩ := agrees_cons_some.mp hcmp
        obtain rfl := Option.some.inj hhead
        have hdot' : c ≠ DOT := by simpa using hdot.symm
        obtain ⟨hleft, hprefix⟩ := ih hend hrest htail
        rw [firstLen, if_neg hdot', encodeBody, if_neg hdot', hleft]
        exact ⟨rfl, (List.prefix_cons_inj c).mpr hprefix⟩
    | zero =>
      rw [dotted] at hdots hcmp
      rw [endOf] at hend
      by_cases hzero : n = 0
      · rw [if_pos (.inl hzero)] at hdots
        have hnil : name = [] := List.map_eq_nil_iff.mp hdots.symm
        subst hnil
        rw [hzero]
        exact ⟨rfl, List.prefix_append [0] response⟩
      · rw [if_neg hzero] at hend
        by_cases hmark : compressed n = true
        · rw [if_pos hmark] at hend
          cases hend
        · rw [if_neg hmark] at hend
          -- A length octet stands where the hostname has a dot.
          rw [if_neg (by simp [hzero, hmark])] at hdots hcmp
          cases name with
          | nil => cases hdots
          | cons c name =>
            obtain ⟨hdot, hrest⟩ := List.cons.inj hdots
            have hdot' : c = DOT := by simpa using hdot.symm
            obtain ⟨hleft, hprefix⟩ := ih hend hrest (agrees_cons_none.mp hcmp)
            rw [firstLen, if_pos hdot', encodeBody, if_pos hdot', ← hleft, UInt8.ofNat_toNat]
            exact ⟨rfl, (List.prefix_cons_inj n).mpr hprefix⟩

/-- With labels of the same lengths, the comparison is exact. -/
theorem encode_of_sameLabels {after : Mem} (h : SameLabels name response)
    (hcmp : Agrees (name ++ after) (dottedName response)) : dnsEncodeName name <+: response := by
  obtain ⟨hend, hdots⟩ := h
  cases response with
  | nil => cases hend
  | cons n response =>
    rw [endOfName] at hend
    rw [dottedName] at hdots hcmp
    by_cases hmark : compressed n = true
    · rw [if_pos hmark] at hend
      cases hend
    · rw [if_neg hmark] at hend hdots hcmp
      obtain ⟨hleft, hprefix⟩ := encodeBody_of_compareLabels hend hdots hcmp
      rw [dnsEncodeName_eq, ← hleft, UInt8.ofNat_toNat]
      exact (List.prefix_cons_inj n).mpr hprefix

/-- A length below 192 is no compression mark. -/
theorem not_compressed {k : ℕ} (hk : k < 192) : compressed (UInt8.ofNat k) = false := by
  have hall : ∀ k < 192, compressed (UInt8.ofNat k) = false := by decide +kernel
  exact hall k hk

/-- The rest of the encoding has the lengths of the labels. -/
theorem dotted_encodeBody (hlen : name.length < 256)
    (hplain : ∀ rest, DOT :: rest <:+ name → 0 < firstLen rest ∧ firstLen rest < 192) (tail : Mem) :
    endOf (firstLen name) (encodeBody name ++ tail) = .zero ∧
      (dotted (firstLen name) (encodeBody name ++ tail)).map Option.isNone = name.map
      (· == DOT) := by
  induction name with
  | nil => exact ⟨rfl, rfl⟩
  | cons c name ih =>
    rw [List.length_cons] at hlen
    obtain ⟨hend, hdots⟩ := ih (by omega) fun rest hrest =>
      hplain rest (hrest.trans (List.suffix_cons c name))
    rw [firstLen, encodeBody]
    by_cases hdot : c = DOT
    · obtain ⟨hpos, hlt⟩ := hplain name (hdot ▸ List.suffix_rfl)
      have hnat : (UInt8.ofNat (firstLen name)).toNat = firstLen name := toNat_firstLen (by omega)
      have hzero : UInt8.ofNat (firstLen name) ≠ 0 := by
        intro hzero
        rw [hzero] at hnat
        exact Nat.ne_of_gt hpos hnat.symm
      have hmark := not_compressed hlt
      rw [if_pos hdot, if_pos hdot, List.cons_append, endOf, dotted, if_neg hzero, hmark,
        if_neg Bool.false_ne_true, if_neg (by simp [hzero]), hnat]
      refine ⟨hend, ?_⟩
      rw [List.map_cons, List.map_cons, hdots, hdot]
      rfl
    · rw [if_neg hdot, if_neg hdot, List.cons_append, endOf, dotted]
      refine ⟨hend, ?_⟩
      rw [List.map_cons, List.map_cons, hdots, beq_false_of_ne hdot]
      rfl

/-- The encoding of a plain hostname has the lengths of its labels. -/
theorem sameLabels_of_encode (hplain : Plain name) (hlen : name.length < 256)
    (h : dnsEncodeName name <+: response) : SameLabels name response := by
  obtain ⟨tail, rfl⟩ := h
  have hmark := not_compressed hplain.1
  unfold SameLabels
  rw [dnsEncodeName_eq, List.cons_append, endOfName, dottedName, hmark, toNat_firstLen hlen]
  exact dotted_encodeBody hlen hplain.2 tail

end

/-- The comparison of a hostname with a question is exact if the question has labels of the same
lengths, or differs from the hostname in an octet of a label, or leaves the memory; and if it is the
encoding of a hostname that is not plain. -/
theorem compare_exact_iff (name : List UInt8) (nameAfter response : Mem)
    (hlen : name.length < 256) :
    (dnsCompareName (name ++ 0 :: nameAfter) response = some false ↔
    dnsEncodeName name <+: response) ↔
      SameLabels name response ∨ ¬ Agrees (name ++ 0 :: nameAfter) (dottedName response) ∨
        endOfName response = .memory ∨ (¬ Plain name ∧ dnsEncodeName name <+: response) := by
  constructor
  · intro h
    by_cases hcmp : dnsCompareName (name ++ 0 :: nameAfter) response = some false
    · have hprefix := h.mp hcmp
      by_cases hplain : Plain name
      · exact .inl (sameLabels_of_encode hplain hlen hprefix)
      · exact .inr (.inr (.inr ⟨hplain, hprefix⟩))
    · rw [dnsCompareName_eq, not_and_or, not_not] at hcmp
      rcases hcmp with hend | hcmp
      · exact .inr (.inr (.inl hend))
      · exact .inr (.inl hcmp)
  · intro h
    refine ⟨fun hcmp => ?_, dnsCompareName_encode hlen nameAfter⟩
    obtain ⟨hend, hagrees⟩ := dnsCompareName_eq.mp hcmp
    rcases h with hsame | hdiff | hmem | ⟨-, hprefix⟩
    · exact encode_of_sameLabels hsame hagrees
    · exact absurd hagrees hdiff
    · exact absurd hmem hend
    · exact hprefix

/-- `"a.b"` and its question. -/
theorem compare_exact_iff_exampleName :
    dnsCompareName ([97, 46, 98] ++ 0 :: []) [1, 97, 1, 98, 0, 0, 1, 0, 1] = some false ↔
      dnsEncodeName [97, 46, 98] <+: [1, 97, 1, 98, 0, 0, 1, 0, 1] :=
  (compare_exact_iff [97, 46, 98] [] [1, 97, 1, 98, 0, 0, 1, 0, 1] (by decide)).mpr
    (.inl (by decide))

/-- The question for `"a"` passes for one for `"ab"`. -/
theorem compare_prefix_passes :
    dnsCompareName ([97, 98] ++ 0 :: []) [1, 97, 0, 0, 1, 0, 1] = some false ∧
      ¬ dnsEncodeName [97, 98] <+: [1, 97, 0, 0, 1, 0, 1] := by
  decide

end Lwip.Dns
