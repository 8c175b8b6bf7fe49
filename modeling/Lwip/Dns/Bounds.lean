import Lwip.Dns.Names
import Lwip.Dns.Resolver

/-!
# Reads of `dns_recv`

`dns_recv` checks the length of a datagram once, and then walks through its names and records with a
pointer that the lengths in them move forward, without an end. `NameEnds` and `AnswersFit` describe
the messages that it does not leave. A read outside of the datagram is one that depends on what
follows it in memory: if nothing follows, the memory ends there. So the reads stay inside exactly if
the result is the same whatever follows, and there is one if nothing does (`StaysInside`).
-/

namespace Lwip.Dns

/-! ## Names and records that end in the message -/

/-- The labels of a name behind its first one, and what follows the name. A name that ends with a
compression mark is one octet longer, which is not read. -/
inductive LabelsEnd : Mem → Mem → Prop
  | zero {rest : Mem} : LabelsEnd (0 :: rest) rest
  | mark {n : UInt8} {rest : Mem} : compressed n = true → LabelsEnd (n :: rest) (rest.drop 1)
  | label {n : UInt8} {label rest after : Mem} : n ≠ 0 → compressed n = false →
    label.length = n.toNat →
      LabelsEnd rest after → LabelsEnd (n :: (label ++ rest)) after

/-- A name, whose first label may be empty, and what follows it. -/
inductive NameEnds : Mem → Mem → Prop
  | mark {n : UInt8} {rest : Mem} : compressed n = true → NameEnds (n :: rest) (rest.drop 1)
  | label {n : UInt8} {label rest after : Mem} : compressed n = false → label.length = n.toNat →
      LabelsEnd rest after → NameEnds (n :: (label ++ rest)) after

/-- The answers that are read: those up to the first address record, or all `n` of them. Of the last
one the data need not be there, as it is skipped. -/
inductive AnswersFit : ℕ → Mem → Prop
  | done {l : Mem} : AnswersFit 0 l
  | address {n : ℕ} {l : Mem} {t₁ t₀ c₁ c₀ l₃ l₂ l₁ l₀ n₁ n₀ a b c d : UInt8} {rest : Mem} :
      NameEnds l (t₁ :: t₀ :: c₁ :: c₀ :: l₃ :: l₂ :: l₁ :: l₀ :: n₁ :: n₀ :: a :: b :: c :: d ::
      rest) → isAddress t₁ t₀ c₁ c₀ n₁ n₀ = true → AnswersFit (n + 1) l
  | other {n : ℕ} {l : Mem} {t₁ t₀ c₁ c₀ l₃ l₂ l₁ l₀ n₁ n₀ : UInt8} {data : Mem} :
      NameEnds l (t₁ :: t₀ :: c₁ :: c₀ :: l₃ :: l₂ :: l₁ :: l₀ :: n₁ :: n₀ :: data) →
      isAddress t₁ t₀ c₁ c₀ n₁ n₀ = false → AnswersFit n (data.drop (ntohs n₁ n₀)) →
        AnswersFit (n + 1) l

/-- The message has this A record in it, as a whole. -/
def HasAddress (p : Mem) (rr : ARecord) : Prop :=
  ∃ t₁ t₀ c₁ c₀ l₃ l₂ l₁ l₀ n₁ n₀ a b c d rest,
    t₁ :: t₀ :: c₁ :: c₀ :: l₃ :: l₂ :: l₁ :: l₀ :: n₁ :: n₀ :: a :: b :: c :: d :: rest <:+ p ∧
    isAddress t₁ t₀ c₁ c₀ n₁ n₀ = true ∧ rr = ⟨ntohl l₃ l₂ l₁ l₀, BitVec.ofNat 32 (ntohl a b c d)⟩

/-! ## The walk over a name -/

section

variable {left n : ℕ} {l l' e : Mem}

/-- The loop skips the rest of a label, and labels to their end. -/
theorem skipLabels_iff : skipLabels left l = some e ↔
    ∃ label rest, l = label ++ rest ∧ label.length = left ∧ LabelsEnd rest e := by
  induction l generalizing left with
  | nil =>
    refine iff_of_false (by cases left <;> simp [skipLabels]) ?_
    rintro ⟨label, rest, hl, -, hend⟩
    obtain ⟨-, rfl⟩ := List.append_eq_nil_iff.mp hl.symm
    cases hend
  | cons n l ih =>
    cases left with
    | succ left =>
      rw [skipLabels, ih]
      constructor
      · rintro ⟨label, rest, rfl, hlen, hend⟩
        exact ⟨n :: label, rest, rfl, by rw [List.length_cons, hlen], hend⟩
      · rintro ⟨label, rest, hl, hlen, hend⟩
        cases label with
        | nil => cases hlen
        | cons m label =>
          obtain ⟨-, rfl⟩ := List.cons.inj hl
          exact ⟨label, rest, rfl, Nat.succ.inj hlen, hend⟩
    | zero =>
      -- The next label begins here.
      have hnil : (∃ label rest, n :: l = label ++ rest ∧ label.length = 0 ∧ LabelsEnd rest e) ↔
          LabelsEnd (n :: l) e := by
        constructor
        · rintro ⟨label, rest, hl, hlen, hend⟩
          obtain rfl := List.length_eq_zero_iff.mp hlen
          rw [hl]
          exact hend
        · exact fun hend => ⟨[], n :: l, rfl, rfl, hend⟩
      rw [hnil, skipLabels]
      by_cases hzero : n = 0
      · subst hzero
        rw [if_pos rfl]
        constructor
        · intro h
          obtain rfl := Option.some.inj h
          exact .zero
        · intro h
          cases h with
          | zero => rfl
          | mark hmark => cases hmark
          | label hne => exact absurd rfl hne
      · rw [if_neg hzero]
        by_cases hmark : compressed n = true
        · rw [if_pos hmark]
          constructor
          · intro h
            obtain rfl := Option.some.inj h
            exact .mark hmark
          · intro h
            cases h with
            | zero => exact absurd rfl hzero
            | mark => rfl
            | label _ hnot => rw [hmark] at hnot; cases hnot
        · rw [if_neg hmark, ih]
          constructor
          · rintro ⟨label, rest, rfl, hlen, hend⟩
            exact .label hzero (by simpa using hmark) hlen hend
          · intro h
            cases h with
            | zero => exact absurd rfl hzero
            | mark hmark' => exact absurd hmark' hmark
            | label _ _ hlen hend => exact ⟨_, _, rfl, hlen, hend⟩

/-- `dns_parse_name` finds the end of a name. -/
theorem dnsParseName_iff : dnsParseName l = some e ↔ NameEnds l e := by
  cases l with
  | nil => exact iff_of_false (by simp [dnsParseName]) (by intro h; cases h)
  | cons n l =>
    rw [dnsParseName]
    by_cases hmark : compressed n = true
    · rw [if_pos hmark]
      constructor
      · intro h
        obtain rfl := Option.some.inj h
        exact .mark hmark
      · intro h
        cases h with
        | mark => rfl
        | label hnot => rw [hmark] at hnot; cases hnot
    · rw [if_neg hmark, skipLabels_iff]
      constructor
      · rintro ⟨label, rest, rfl, hlen, hend⟩
        exact .label (by simpa using hmark) hlen hend
      · intro h
        cases h with
        | mark hmark' => exact absurd hmark' hmark
        | label _ hlen hend => exact ⟨_, _, rfl, hlen, hend⟩

/-! ## The walk over the answers -/

/-- The walk over the answers comes to an end if they fit, and then an address that it takes is in
them. -/
theorem answersFit_of_dnsAnswers {r : Option ARecord} (h : dnsAnswers n l = some r) :
    AnswersFit n l := by
  induction n generalizing l with
  | zero => exact .done
  | succ n ih =>
    unfold dnsAnswers at h
    obtain ⟨body, hname, h⟩ := Option.bind_eq_some_iff.mp h
    have hname := dnsParseName_iff.mp hname
    split at h
    · split at h
      · next haddr =>
        split at h
        · exact .address hname haddr
        · cases h
      · next haddr => exact .other hname (by simpa using haddr) (ih h)
    · cases h

/-- The loop over the answers ends if they fit. -/
theorem dnsAnswers_of_answersFit (h : AnswersFit n l) : ∃ r, dnsAnswers n l = some r := by
  induction h with
  | done => exact ⟨none, rfl⟩
  | address hname haddr =>
    rw [dnsAnswers, dnsParseName_iff.mpr hname]
    simp only [Option.bind_eq_bind, Option.bind_some]
    rw [if_pos haddr]
    exact ⟨_, rfl⟩
  | other hname haddr _ ih =>
    rw [dnsAnswers, dnsParseName_iff.mpr hname]
    simp only [Option.bind_eq_bind, Option.bind_some]
    rw [haddr, if_neg Bool.false_ne_true]
    exact ih

/-- The end of the labels is an end of the message. -/
theorem LabelsEnd.suffix (h : LabelsEnd l e) : e <:+ l := by
  induction h with
  | zero => exact List.suffix_cons _ _
  | mark => exact (List.drop_suffix _ _).trans (List.suffix_cons _ _)
  | label _ _ _ _ ih => exact ih.trans ((List.suffix_append _ _).trans (List.suffix_cons _ _))

/-- The end of a name is an end of the message. -/
theorem NameEnds.suffix (h : NameEnds l e) : e <:+ l := by
  cases h with
  | mark => exact (List.drop_suffix _ _).trans (List.suffix_cons _ _)
  | label _ _ hend =>
    exact hend.suffix.trans ((List.suffix_append _ _).trans (List.suffix_cons _ _))

/-- The address that the walk takes is in an A record that is all there. -/
theorem hasAddress_of_dnsAnswers {rr : ARecord} (h : dnsAnswers n l = some (some rr)) :
    HasAddress l rr := by
  induction n generalizing l with
  | zero => cases h
  | succ n ih =>
    unfold dnsAnswers at h
    obtain ⟨body, hname, h⟩ := Option.bind_eq_some_iff.mp h
    have hsuffix := (dnsParseName_iff.mp hname).suffix
    split at h
    · next t₁ t₀ c₁ c₀ l₃ l₂ l₁ l₀ n₁ n₀ data =>
      split at h
      · next haddr =>
        split at h
        · cases h
          exact ⟨_, _, _, _, _, _, _, _, _, _, _, _, _, _, _, hsuffix, haddr, rfl⟩
        · cases h
      · obtain ⟨t₁, t₀, c₁, c₀, l₃, l₂, l₁, l₀, n₁, n₀, a, b, c, d, rest, hrest, haddr, hrr⟩ := ih h
        have hdata : data.drop (ntohs n₁ n₀) <:+ data := List.drop_suffix _ _
        refine ⟨t₁, t₀, c₁, c₀, l₃, l₂, l₁, l₀, n₁, n₀, a, b, c, d, rest, ?_, haddr, hrr⟩
        refine hrest.trans ((List.drop_suffix _ _).trans (.trans ?_ hsuffix))
        exact List.suffix_append [_, _, _, _, _, _, _, _, _, _] data
    · cases h

/-! ## What follows the message in memory -/

/-- A place in the message, when `after` follows it; or one behind its end. -/
def Extends (after e e' : Mem) : Prop := e' = e ++ after ∨ e = []

/-- Further on, the message is extended as before. -/
theorem Extends.drop {after e' : Mem} (h : Extends after e e') (k : ℕ) :
    Extends after (e.drop k) (e'.drop k) := by
  rcases h with rfl | rfl
  · by_cases hk : k ≤ e.length
    · exact .inl (List.drop_append_of_le_length hk)
    · exact .inr (List.drop_eq_nil_of_le (by omega))
  · exact .inr List.drop_nil

/-- The labels end where they did, whatever follows. -/
theorem LabelsEnd.extends (h : LabelsEnd l e) (after : Mem) :
    ∃ e', LabelsEnd (l ++ after) e' ∧ Extends after e e' := by
  induction h with
  | zero => exact ⟨_, .zero, .inl rfl⟩
  | @mark n rest hmark => exact ⟨_, .mark hmark, Extends.drop (.inl rfl) 1⟩
  | @label n label rest e hzero hmark hlen _ ih =>
    obtain ⟨e', hend, hext⟩ := ih
    refine ⟨e', ?_, hext⟩
    rw [List.cons_append, List.append_assoc]
    exact .label hzero hmark hlen hend

/-- A name ends where it did, whatever follows. -/
theorem NameEnds.extends (h : NameEnds l e) (after : Mem) :
    ∃ e', NameEnds (l ++ after) e' ∧ Extends after e e' := by
  cases h with
  | @mark n rest hmark => exact ⟨_, .mark hmark, Extends.drop (.inl rfl) 1⟩
  | @label n label rest e hmark hlen hend =>
    obtain ⟨e', hend', hext⟩ := hend.extends after
    refine ⟨e', ?_, hext⟩
    rw [List.cons_append, List.append_assoc]
    exact .label hmark hlen hend'

/-- The walk over answers that fit does not depend on what follows. -/
theorem dnsAnswers_extends {after e' : Mem} {r : Option ARecord} (hext : Extends after e e')
    (h : dnsAnswers n e = some r) : dnsAnswers n e' = some r := by
  induction n generalizing e e' with
  | zero => exact h
  | succ n ih =>
    unfold dnsAnswers at h
    obtain ⟨body, hname, h⟩ := Option.bind_eq_some_iff.mp h
    have hname := dnsParseName_iff.mp hname
    have he : e' = e ++ after := by
      rcases hext with he | rfl
      · exact he
      · cases hname
    obtain ⟨body', hname', hbody⟩ := hname.extends after
    rw [← he] at hname'
    rw [dnsAnswers, dnsParseName_iff.mpr hname']
    split at h
    · next t₁ t₀ c₁ c₀ l₃ l₂ l₁ l₀ n₁ n₀ data =>
      obtain rfl := hbody.resolve_right (List.cons_ne_nil _ _)
      simp only [Option.bind_eq_bind, Option.bind_some, List.cons_append]
      split at h
      · next haddr =>
        rw [if_pos haddr]
        split at h
        · exact h
        · cases h
      · next haddr =>
        rw [if_neg haddr]
        exact ih (Extends.drop (.inl rfl) _) h
    · cases h

/-! ## The comparison -/

/-- A difference is found whatever follows, and so is the end of the name. -/
theorem compareLabels_append {query : Mem} {v : Bool} (after : Mem)
    (h : compareLabels left query l = some v) : compareLabels left query (l ++ after) = some v := by
  induction l generalizing left query with
  | nil => cases left <;> cases query <;> simp [compareLabels] at h
  | cons b l ih =>
    cases left with
    | succ left =>
      cases query with
      | nil => simp [compareLabels] at h
      | cons a query =>
        rw [compareLabels] at h
        rw [List.cons_append, compareLabels]
        split at h
        · next hab => rwa [if_pos hab]
        · next hab => rw [if_neg hab, ih h]
    | zero =>
      rw [compareLabels] at h
      rw [List.cons_append, compareLabels]
      split at h
      · next hzero => rwa [if_pos hzero]
      · next hzero =>
        rw [if_neg hzero]
        split at h
        · next hmark => rwa [if_pos hmark]
        · next hmark => rw [if_neg hmark, ih h]

/-- What was compared stays the same, whatever follows. -/
theorem dnsCompareName_append {query : Mem} {v : Bool} (after : Mem)
    (h : dnsCompareName query l = some v) : dnsCompareName query (l ++ after) = some v := by
  cases l with
  | nil => cases h
  | cons b l =>
    rw [dnsCompareName] at h
    rw [List.cons_append, dnsCompareName]
    split at h
    · next hmark => rwa [if_pos hmark]
    · next hmark => rw [if_neg hmark, compareLabels_append after h]

/-- With memory enough behind the hostname, the comparison leaves the message only if it finds no
difference in it. -/
theorem compareLabels_ne_none {query : Mem} (hlen : l.length ≤ query.length)
    (h : ¬ Agrees query (dotted left l)) : compareLabels left query l = some true := by
  induction l generalizing left query with
  | nil => exact absurd (by cases left <;> exact agrees_nil query) h
  | cons b l ih =>
    cases left with
    | succ left =>
      cases query with
      | nil => cases hlen
      | cons a query =>
        rw [dotted, agrees_cons_some] at h
        rw [compareLabels]
        by_cases hab : a = b
        · rw [if_neg (not_not.mpr hab)]
          refine ih (Nat.le_of_succ_le_succ hlen) fun hagrees => h ⟨?_, hagrees⟩
          rw [hab]
          rfl
        · rw [if_pos hab]
    | zero =>
      rw [dotted] at h
      rw [compareLabels]
      -- At the end of the name or at a compressed one, there is nothing left to compare.
      by_cases hend : b = 0 ∨ compressed b = true
      · rw [if_pos hend] at h
        exact absurd (agrees_nil query) h
      · rw [if_neg hend, agrees_cons_none] at h
        obtain ⟨hzero, hmark⟩ := not_or.mp hend
        rw [if_neg hzero, if_neg hmark]
        refine ih ?_ h
        rw [List.length_tail]
        rw [List.length_cons] at hlen
        omega

/-- A name that does not agree is found to differ. -/
theorem dnsCompareName_differs {query : Mem} (hlen : l.length ≤ query.length + 1)
    (h : ¬ Agrees query (dottedName l)) : dnsCompareName query l = some true := by
  cases l with
  | nil => exact absurd (agrees_nil query) h
  | cons b l =>
    rw [dottedName] at h
    rw [dnsCompareName]
    by_cases hmark : compressed b = true
    · rw [if_pos hmark] at h
      exact absurd (agrees_nil query) h
    · rw [if_neg hmark] at h ⊢
      exact compareLabels_ne_none (Nat.le_of_succ_le_succ hlen) h

/-- A difference is one in an octet of a label. -/
theorem not_agrees_of_compareLabels {query : Mem} (h : compareLabels left query l = some true) :
    ¬ Agrees query (dotted left l) := by
  induction l generalizing left query with
  | nil => cases left <;> cases query <;> simp [compareLabels] at h
  | cons b l ih =>
    cases left with
    | succ left =>
      rw [dotted, agrees_cons_some]
      rintro ⟨hhead, htail⟩
      cases query with
      | nil => cases hhead
      | cons a query =>
        rw [compareLabels, if_neg (not_not.mpr (Option.some.inj hhead))] at h
        exact ih h htail
    | zero =>
      rw [compareLabels] at h
      rw [dotted]
      split at h
      · cases h
      · next hzero =>
        split at h
        · cases h
        · next hmark =>
          rw [if_neg (by simp [hzero, hmark]), agrees_cons_none]
          exact ih h

/-- A name that is found to differ does not agree. -/
theorem not_agrees_of_dnsCompareName {query : Mem} (h : dnsCompareName query l = some true) :
    ¬ Agrees query (dottedName l) := by
  cases l with
  | nil => cases h
  | cons b l =>
    rw [dnsCompareName] at h
    rw [dottedName]
    split at h
    · cases h
    · next hmark =>
      rw [if_neg hmark]
      exact not_agrees_of_compareLabels h

/-- A name that is skipped does not end behind the memory. -/
theorem endOf_of_skipLabels (h : skipLabels left l = some e) : endOf left l ≠ .memory := by
  induction l generalizing left with
  | nil => cases left <;> simp [skipLabels] at h
  | cons b l ih =>
    cases left with
    | succ left => exact ih h
    | zero =>
      rw [skipLabels] at h
      rw [endOf]
      split at h
      · next hzero =>
        rw [if_pos hzero]
        exact NameEnd.noConfusion
      · next hzero =>
        rw [if_neg hzero]
        split at h
        · next hmark =>
          rw [if_pos hmark]
          exact NameEnd.noConfusion
        · next hmark =>
          rw [if_neg hmark]
          exact ih h

/-- A name that ends in the message ends there for the comparison. -/
theorem NameEnds.endOfName (h : NameEnds l e) : endOfName l ≠ .memory := by
  have hskip := dnsParseName_iff.mpr h
  cases l with
  | nil => cases hskip
  | cons b l =>
    rw [dnsParseName] at hskip
    rw [Dns.endOfName]
    split at hskip
    · next hmark =>
      rw [if_pos hmark]
      exact NameEnd.noConfusion
    · next hmark =>
      rw [if_neg hmark]
      exact endOf_of_skipLabels hskip

end

/-! ## The datagram -/

variable {o : Opts}

/-- The datagram is a response for the entry `i`, which waits for it. -/
def Expected (s : Resolver o) (m : Datagram) (i : Fin o.DNS_TABLE_SIZE) : Prop :=
  m.id = i ∧ (s.dns_table i).state = .ASKING ∧ m.responds = true

/-- The name of the question, and the answers that are read, end in the datagram. -/
def MessageFits (m : Datagram) : Prop :=
  ∃ rest, NameEnds (m.p.drop 12) rest ∧ AnswersFit m.nanswers (rest.drop 4)

/-- `dns_recv` ends, with the same result whatever follows the datagram in memory, and also if
nothing does. An address that it takes is in a record of the datagram. -/
def StaysInside (s : Resolver o) (m : Datagram) : Prop :=
  ∃ x, (∀ after, dnsRecv s { m with after } = .ok x) ∧
    ∀ i rr, x.2 = some (i, some rr) → HasAddress m.p rr

/-- An address in a part of the message is one of the message. -/
theorem HasAddress.mono {l p : Mem} {rr : ARecord} (h : HasAddress l rr) (hl : l <:+ p) :
    HasAddress p rr := by
  obtain ⟨t₁, t₀, c₁, c₀, l₃, l₂, l₁, l₀, n₁, n₀, a, b, c, d, rest, hrest, haddr, hrr⟩ := h
  exact ⟨t₁, t₀, c₁, c₀, l₃, l₂, l₁, l₀, n₁, n₀, a, b, c, d, rest, hrest.trans hl, haddr, hrr⟩

section

variable {s : Resolver o} {m : Datagram} {i : Fin o.DNS_TABLE_SIZE}

/-- What `dns_recv` does with a response that is expected, after the comparison and the walk. -/
def answered (s : Resolver o) (m : Datagram) (i : Fin o.DNS_TABLE_SIZE) :
    Option ARecord → Resolver o × Option (Fin o.DNS_TABLE_SIZE × Option ARecord)
  | none => (s.set i { s.dns_table i with state := .DONE, err := m.flags2 &&& 0x0f },
    some (i, none))
  | some ans =>
    ((s.set i { s.dns_table i with state := .DONE, err := m.flags2 &&& 0x0f }).set i
      { s.dns_table i with
        state := .DONE, err := m.flags2 &&& 0x0f, ttl := min ans.ttl o.DNS_MAX_TTL,
        ipaddr := ans.ipaddr }, some (i, some ans))

/-- What becomes of a response that is expected. -/
theorem dnsRecv_expected (hmin : 12 + 4 + 10 ≤ m.p.length) (hmax : m.p.length ≤ o.DNS_MSG_SIZE)
    (he : Expected s m i) (after : Mem) : dnsRecv s { m with after } =
      (inMemory .outOfMemory (dnsCompareName ((s.dns_table i).name ++ 0 :: m.nameAfter)
      (m.p.drop 12 ++ after)) >>=
        fun differs => if differs then .ok (answered s m i none)
          else inMemory .outOfMemory ((dnsParseName (m.p.drop 12 ++ after)).bind fun rest =>
            dnsAnswers m.nanswers (rest.drop 4)) >>= fun r => .ok (answered s m i r)) := by
  obtain ⟨hid, hstate, hresponds⟩ := he
  have hlt : m.id < o.DNS_TABLE_SIZE := hid ▸ i.isLt
  have hi : (⟨m.id, hlt⟩ : Fin o.DNS_TABLE_SIZE) = i := Fin.ext hid
  unfold dnsRecv
  rw [if_neg (by show ¬ m.p.length > _; omega), if_neg (by show ¬ m.p.length < _; omega),
    dif_pos (show Datagram.id { m with after } < _ from hlt)]
  dsimp only
  rw [show (⟨Datagram.id { m with after }, hlt⟩ : Fin o.DNS_TABLE_SIZE) = i from hi, if_pos hstate,
    if_pos (show Datagram.responds { m with after } = true from hresponds)]
  show (inMemory Abort.outOfMemory (dnsCompareName ((s.dns_table i).name ++ 0 :: m.nameAfter)
    (m.p.drop 12 ++ after)) >>= _) = _
  cases dnsCompareName ((s.dns_table i).name ++ 0 :: m.nameAfter) (m.p.drop 12 ++ after) with
  | none => rfl
  | some differs =>
    cases differs with
    | true => rfl
    | false =>
      show (inMemory Abort.outOfMemory ((dnsParseName (m.p.drop 12 ++ after)).bind fun rest =>
            dnsAnswers m.nanswers (rest.drop 4)) >>= _) = _
      cases (dnsParseName (m.p.drop 12 ++ after)).bind fun rest =>
        dnsAnswers m.nanswers (rest.drop 4) with
      | none => rfl
      | some r => cases r <;> rfl

/-- A datagram that is not expected is not read behind its header. -/
theorem dnsRecv_unexpected (he : ∀ i, ¬ Expected s m i) :
    ∃ x, (∀ after, dnsRecv s { m with after } = .ok x) ∧ ∀ i rr, x.2 ≠ some (i, some rr) := by
  unfold dnsRecv
  by_cases hmax : m.p.length > o.DNS_MSG_SIZE
  · exact ⟨_, fun _ => if_pos hmax, fun i rr hx => by cases hx⟩
  by_cases hmin : m.p.length < 12 + 4 + 10
  · exact ⟨_, fun _ => (if_neg hmax).trans (if_pos hmin), fun i rr hx => by cases hx⟩
  by_cases hid : m.id < o.DNS_TABLE_SIZE
  · by_cases hstate : (s.dns_table ⟨m.id, hid⟩).state = .ASKING
    · have hresponds : ¬ m.responds = true := fun hr => he ⟨m.id, hid⟩ ⟨rfl, hstate, hr⟩
      refine ⟨answered s m ⟨m.id, hid⟩ none, fun after => ?_, fun i rr hx => by cases hx⟩
      have hid' : Datagram.id { m with after } < o.DNS_TABLE_SIZE := hid
      have hstate' : (s.dns_table ⟨Datagram.id { m with after }, hid'⟩).state = .ASKING := hstate
      rw [if_neg (show ¬ m.p.length > _ from hmax), if_neg (show ¬ m.p.length < _ from hmin),
        dif_pos hid']
      dsimp only
      rw [if_pos hstate', if_neg (show ¬ Datagram.responds { m with after } = true from hresponds)]
      rfl
    · exact ⟨_, fun _ => (if_neg hmax).trans ((if_neg hmin).trans ((dif_pos hid).trans
        (if_neg hstate))), fun i rr hx => by cases hx⟩
  · exact ⟨_, fun _ => (if_neg hmax).trans ((if_neg hmin).trans (dif_neg hid)),
      fun i rr hx => by cases hx⟩

/-- The question differs from the hostname. -/
theorem staysInside_of_differs (hmin : 12 + 4 + 10 ≤ m.p.length)
    (hmax : m.p.length ≤ o.DNS_MSG_SIZE) (he : Expected s m i)
    (hcmp : dnsCompareName ((s.dns_table i).name ++ 0 :: m.nameAfter) (m.p.drop 12) = some true) :
    StaysInside s m := by
  refine ⟨answered s m i none, fun after => ?_, fun j rr hx => by cases hx⟩
  rw [dnsRecv_expected hmin hmax he, dnsCompareName_append after hcmp]
  rfl

/-- All that is read ends in the datagram. -/
theorem staysInside_of_fits (hmin : 12 + 4 + 10 ≤ m.p.length) (hmax : m.p.length ≤ o.DNS_MSG_SIZE)
    (he : Expected s m i)
    (hcmp : dnsCompareName ((s.dns_table i).name ++ 0 :: m.nameAfter) (m.p.drop 12) = some false)
    (hfits : MessageFits m) : StaysInside s m := by
  obtain ⟨rest, hname, hanswers⟩ := hfits
  obtain ⟨r, hr⟩ := dnsAnswers_of_answersFit hanswers
  refine ⟨answered s m i r, fun after => ?_, fun j rr hx => ?_⟩
  · obtain ⟨rest', hname', hext⟩ := hname.extends after
    rw [dnsRecv_expected hmin hmax he, dnsCompareName_append after hcmp,
      dnsParseName_iff.mpr hname', Option.bind_some, dnsAnswers_extends (hext.drop 4) hr]
    rfl
  · cases r with
    | none => cases hx
    | some ans =>
      obtain ⟨-, hrr⟩ := Prod.mk.inj (Option.some.inj hx)
      obtain rfl := Option.some.inj hrr
      refine (hasAddress_of_dnsAnswers hr).mono ((List.drop_suffix _ _).trans ?_)
      exact hname.suffix.trans (List.drop_suffix _ _)

end

/-- A datagram whose length is right is read only inside, exactly if it is not expected, or the
question differs from the hostname in an octet that is in the datagram, or all that is read ends in
the datagram. -/
theorem dnsRecv_inside_iff (s : Resolver o) (m : Datagram) (hmin : 12 + 4 + 10 ≤ m.p.length)
    (hmax : m.p.length ≤ o.DNS_MSG_SIZE) (hname : m.p.length ≤ m.nameAfter.length) :
    StaysInside s m ↔ ∀ i, Expected s m i →
      ¬ Agrees ((s.dns_table i).name ++ 0 :: m.nameAfter) (dottedName (m.p.drop 12)) ∨
      MessageFits m := by
  constructor
  · rintro ⟨x, hrun, -⟩ i he
    -- With nothing behind the datagram, each read outside is seen.
    have h := hrun []
    rw [dnsRecv_expected hmin hmax he, List.append_nil] at h
    cases hcmp : dnsCompareName ((s.dns_table i).name ++ 0 :: m.nameAfter) (m.p.drop 12) with
    | none =>
      rw [hcmp] at h
      cases h
    | some differs =>
      cases differs with
      | true => exact .inl (not_agrees_of_dnsCompareName hcmp)
      | false =>
        right
        rw [hcmp] at h
        cases hanswer : (dnsParseName (m.p.drop 12)).bind fun rest =>
          dnsAnswers m.nanswers (rest.drop 4) with
        | none =>
          rw [hanswer] at h
          cases h
        | some r =>
          obtain ⟨rest, hparse, hr⟩ := Option.bind_eq_some_iff.mp hanswer
          exact ⟨rest, dnsParseName_iff.mp hparse, answersFit_of_dnsAnswers hr⟩
  · intro h
    -- A datagram that is not expected is dropped before its names are read.
    by_cases he : ∃ i, Expected s m i
    · obtain ⟨i, he⟩ := he
      by_cases hagrees : Agrees ((s.dns_table i).name ++ 0 :: m.nameAfter)
        (dottedName (m.p.drop 12))
      · obtain ⟨rest, hends, hanswers⟩ := (h i he).resolve_left (not_not.mpr hagrees)
        exact staysInside_of_fits hmin hmax he (dnsCompareName_eq.mpr ⟨hends.endOfName, hagrees⟩)
          ⟨rest, hends, hanswers⟩
      · have hlen : (m.p.drop 12).length ≤
            ((s.dns_table i).name ++ 0 :: m.nameAfter).length + 1 := by
          rw [List.length_drop, List.length_append, List.length_cons]
          omega
        exact staysInside_of_differs hmin hmax he (dnsCompareName_differs hlen hagrees)
    · obtain ⟨x, hrun, hx⟩ := dnsRecv_unexpected (not_exists.mp he)
      exact ⟨x, hrun, fun i rr hrr => absurd hrr (hx i rr)⟩

/-- The options of this build; no hostname is in dotted notation. -/
def exampleOpts : Opts where
  inet_addr := fun _ => INADDR_NONE

/-- The first entry waits for the address of `"a"`. -/
def exampleAsking : Resolver exampleOpts where
  dns_pcb := true
  dns_table := fun _ => { state := .ASKING, name := [97] }

/-- A response to the question for `"a"`, with these octets behind the question. -/
def exampleResponse (answer : List UInt8) : Datagram where
  p := [0, 0, 0x80, 0, 0, 1, 0, 1, 0, 0, 0, 0] ++ [1, 97, 0, 0, 1, 0, 1] ++ answer
  nameAfter := List.replicate 512 0

/-- An answer with a compressed name and an address. -/
def exampleAddress : List UInt8 := [0xc0, 0x0c, 0, 1, 0, 1, 0, 0, 0, 60, 0, 4, 10, 0, 0, 1]

/-- The response with an address is read inside of the datagram. -/
theorem dnsRecv_inside_iff_exampleAddress :
    StaysInside exampleAsking (exampleResponse exampleAddress) := by
  have hlen : (exampleResponse exampleAddress).p.length = 35 := rfl
  have hparse : dnsParseName ((exampleResponse exampleAddress).p.drop 12) =
      some ([0, 1, 0, 1] ++ exampleAddress) := by
    decide +kernel
  have hanswer : dnsAnswers 1 exampleAddress = some (some ⟨60, 0x0a000001⟩) := by decide +kernel
  refine (dnsRecv_inside_iff exampleAsking (exampleResponse exampleAddress) ?_ ?_ ?_).mpr
    fun i _ => .inr ⟨_, dnsParseName_iff.mp hparse, answersFit_of_dnsAnswers hanswer⟩
  · rw [hlen]
    omega
  · show _ ≤ 512
    rw [hlen]
    omega
  · rw [hlen, exampleResponse, List.length_replicate]
    omega

/-- An answer whose name has a label that is longer than the rest of the datagram. -/
def exampleLongLabel : Datagram := exampleResponse [63, 0, 0, 0, 0, 0, 0]

/-- The response with a long label is not. -/
theorem long_label_leaves_message :
    12 + 4 + 10 ≤ exampleLongLabel.p.length ∧ exampleLongLabel.p.length ≤ exampleOpts.DNS_MSG_SIZE ∧
      dnsRecv exampleAsking { exampleLongLabel with after := [] } = .error .outOfMemory ∧
      ¬ StaysInside exampleAsking exampleLongLabel := by
  have hmin : 12 + 4 + 10 ≤ exampleLongLabel.p.length := Nat.le_refl 26
  have hmax : exampleLongLabel.p.length ≤ exampleOpts.DNS_MSG_SIZE := Nat.le_add_right 26 486
  have he : Expected exampleAsking exampleLongLabel ⟨0, Nat.zero_lt_succ 3⟩ :=
    ⟨rfl, rfl, by decide +kernel⟩
  have hcmp : dnsCompareName ([97] ++ 0 :: List.replicate 512 0)
      (exampleLongLabel.p.drop 12 ++ []) = some false := by
    decide +kernel
  have hanswer : ((dnsParseName (exampleLongLabel.p.drop 12 ++ [])).bind fun rest =>
      dnsAnswers exampleLongLabel.nanswers (rest.drop 4)) = none := by
    decide +kernel
  have hleaves : dnsRecv exampleAsking { exampleLongLabel with after := [] } =
    .error .outOfMemory := by
    rw [dnsRecv_expected hmin hmax he, hanswer]
    show (inMemory Abort.outOfMemory
      (dnsCompareName ([97] ++ 0 :: List.replicate 512 0) (exampleLongLabel.p.drop 12 ++ [])) >>=
      _) = _
    rw [hcmp]
    rfl
  refine ⟨hmin, hmax, hleaves, ?_⟩
  rintro ⟨x, hrun, -⟩
  have h := hrun []
  rw [hleaves] at h
  cases h

end Lwip.Dns
