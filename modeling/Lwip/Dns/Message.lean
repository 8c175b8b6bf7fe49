import Lwip.Lib.Octets
import Mathlib.Tactic.Common

/-!
# DNS responses

The functions of `dns.c` that read a response. They walk over memory without a bound: `none` is a
read past its end. Beside them stands the reading of a message that stays inside it (`aRecords`),
with which the walk agrees as long as it meets no empty name and does not leave the message
(`plainMessage_carries`).
-/

namespace Lwip.Dns

/-- The two high bits of an octet mark a compressed name. -/
def compressed (n : UInt8) : Bool := n &&& 0xc0 == 0xc0

/-- The loops of `dns_compare_name`, with `left` octets of a label still to be compared. -/
def compareLabels : (left : ℕ) → (query response : Mem) → Option Bool
  | left + 1, a :: query, b :: response =>
    if a ≠ b then some true else compareLabels left query response
  | 0, query, n :: response =>
    if n = 0 then some false
    else if compressed n then some false
    else compareLabels n.toNat query.tail response
  | _, _, _ => none

/-- `dns_compare_name`: the names differ. -/
def dnsCompareName (query : Mem) : (response : Mem) → Option Bool
  | n :: response => if compressed n then some false else compareLabels n.toNat query response
  | [] => none

/-- The loops of `dns_parse_name`, with `left` octets of a label still to be skipped. -/
def skipLabels : (left : ℕ) → (query : Mem) → Option Mem
  | left + 1, _ :: query => skipLabels left query
  | 0, n :: query =>
    if n = 0 then some query
    else if compressed n then some (query.drop 1)
    else skipLabels n.toNat query
  | _, [] => none

/-- `dns_parse_name`: what follows a name. -/
def dnsParseName : (query : Mem) → Option Mem
  | n :: query => if compressed n then some (query.drop 1) else skipLabels n.toNat query
  | [] => none

/-- An A record: its `ttl`, and the address it gives. -/
structure ARecord where
  ttl : ℕ
  ipaddr : BitVec 32
  deriving DecidableEq, Repr

/-- `DNS_RRTYPE_A`, `DNS_RRCLASS_IN`, and the length of an address. -/
def isAddress (t₁ t₀ c₁ c₀ n₁ n₀ : UInt8) : Bool :=
  ntohs t₁ t₀ == 1 && ntohs c₁ c₀ == 1 && ntohs n₁ n₀ == 4

/-- The loop of `dns_recv` over the answers: the A record that it takes. -/
def dnsAnswers : (nanswers : ℕ) → (pHostname : Mem) → Option (Option ARecord)
  | 0, _ => some none
  | nanswers + 1, pHostname => do
    match ← dnsParseName pHostname with
    | t₁ :: t₀ :: c₁ :: c₀ :: l₃ :: l₂ :: l₁ :: l₀ :: n₁ :: n₀ :: data =>
      if isAddress t₁ t₀ c₁ c₀ n₁ n₀ then
        match data with
        | a :: b :: c :: d :: _ =>
          some (some ⟨ntohl l₃ l₂ l₁ l₀, BitVec.ofNat 32 (ntohl a b c d)⟩)
        | _ => none
      else dnsAnswers nanswers (data.drop (ntohs n₁ n₀))
    | _ => none

/-! ## The records of a message -/

/-- What follows a name, `left` octets into whose current label. -/
def nameEnd : (left : ℕ) → Mem → Option Mem
  | left + 1, _ :: rest => nameEnd left rest
  | 0, n :: rest =>
    if n = 0 then some rest
    else if compressed n then rest.tail?
    else nameEnd n.toNat rest
  | _, [] => none

/-- A resource record without its name: its type, class, `ttl` and data, and what follows. -/
def record : Mem → Option (Bool × ARecord × Mem)
  | t₁ :: t₀ :: c₁ :: c₀ :: l₃ :: l₂ :: l₁ :: l₀ :: n₁ :: n₀ :: data =>
    if data.length < ntohs n₁ n₀ then none
    else some (isAddress t₁ t₀ c₁ c₀ n₁ n₀,
      ⟨ntohl l₃ l₂ l₁ l₀, BitVec.ofNat 32 (ntohl (data.getD 0 0) (data.getD 1 0) (data.getD 2 0)
        (data.getD 3 0))⟩, data.drop (ntohs n₁ n₀))
  | _ => none

/-- The A records among the first `n` records that are complete. -/
def aRecords : ℕ → Mem → List ARecord
  | 0, _ => []
  | n + 1, l =>
    match (nameEnd 0 l).bind record with
    | some (true, rr, rest) => rr :: aRecords n rest
    | some (false, _, rest) => aRecords n rest
    | none => []

/-- The answer section of a message: what follows the header and one question. -/
def answerSection (p : Mem) : Option Mem :=
  (nameEnd 0 (p.drop 12)).bind fun rest => if rest.length < 4 then none else some (rest.drop 4)

/-- The message carries this A record in its answer section. -/
def Carries (p : Mem) (rr : ARecord) : Prop :=
  ∃ l, answerSection p = some l ∧ rr ∈ aRecords (ntohs (p.getD 6 0) (p.getD 7 0)) l

/-- The records, up to the first A record of them, are complete, none has an empty name, and that A
record does not expire at once. -/
def plainAnswers (maxTtl : ℕ) : ℕ → Mem → Bool
  | 0, _ => true
  | n + 1, l =>
    decide (l.head? ≠ some 0) &&
      match (nameEnd 0 l).bind record with
      | some (true, rr, _) => decide (min rr.ttl maxTtl ≠ 0)
      | some (false, _, rest) => plainAnswers maxTtl n rest
      | none => false

/-- A message whose question and answers are plain. -/
def plainMessage (maxTtl nanswers : ℕ) (p : Mem) : Bool :=
  decide ((p.drop 12).head? ≠ some 0) &&
    (answerSection p).elim false (plainAnswers maxTtl nanswers)

/-! ## The walk stays in the message -/

/-- A name that ends in the message ends there for the walk. -/
theorem skipLabels_append {left : ℕ} {l rest : Mem} (after : Mem) (h : nameEnd left l = some rest) :
    skipLabels left (l ++ after) = some (rest ++ after) := by
  induction l generalizing left with
  | nil =>
    unfold nameEnd at h
    split at h <;> simp_all
  | cons n l ih =>
    cases left with
    | succ left => exact ih h
    | zero =>
      unfold nameEnd at h
      show skipLabels 0 (n :: (l ++ after)) = _
      unfold skipLabels
      split at h
      · next hz =>
        cases h
        rw [if_pos hz]
      next hz =>
      rw [if_neg hz]
      split at h
      · next hc =>
        rw [if_pos hc]
        cases l with
        | nil => cases h
        | cons b l =>
          cases h
          rfl
      · next hc =>
        rw [if_neg hc]
        exact ih h

/-- A name that is not empty ends where the walk finds its end. -/
theorem dnsParseName_append {l rest : Mem} (after : Mem) (hne : l.head? ≠ some 0)
    (h : nameEnd 0 l = some rest) : dnsParseName (l ++ after) = some (rest ++ after) := by
  have hskip := skipLabels_append after h
  cases l with
  | nil => cases h
  | cons n l =>
    have hz : n ≠ 0 := fun hz => hne (by rw [hz]; rfl)
    show dnsParseName (n :: (l ++ after)) = _
    have hstart : dnsParseName (n :: (l ++ after)) = skipLabels 0 (n :: (l ++ after)) := by
      rw [dnsParseName, skipLabels, if_neg hz]
    rw [hstart]
    exact hskip

/-- The records that are read first are among those that are read. -/
theorem aRecords_mono {n m : ℕ} (h : n ≤ m) (l : Mem) : aRecords n l ⊆ aRecords m l := by
  induction n generalizing m l with
  | zero => exact List.nil_subset _
  | succ n ih =>
    obtain ⟨m, rfl⟩ := Nat.exists_eq_add_of_lt h
    unfold aRecords
    split
    · exact List.cons_subset_cons _ (ih (by omega) _)
    · exact ih (by omega) _
    · exact List.nil_subset _

/-- A record that is complete, as the walk reads it. -/
theorem record_eq_some {l rest : Mem} {isA : Bool} {rr : ARecord}
    (h : record l = some (isA, rr, rest)) : ∃ t₁ t₀ c₁ c₀ l₃ l₂ l₁ l₀ n₁ n₀ data,
      l = t₁ :: t₀ :: c₁ :: c₀ :: l₃ :: l₂ :: l₁ :: l₀ :: n₁ :: n₀ :: data ∧
      ntohs n₁ n₀ ≤ data.length ∧ isA = isAddress t₁ t₀ c₁ c₀ n₁ n₀ ∧
      rr = ⟨ntohl l₃ l₂ l₁ l₀, BitVec.ofNat 32
        (ntohl (data.getD 0 0) (data.getD 1 0) (data.getD 2 0) (data.getD 3 0))⟩ ∧
      rest = data.drop (ntohs n₁ n₀) := by
  unfold record at h
  split at h
  · next t₁ t₀ c₁ c₀ l₃ l₂ l₁ l₀ n₁ n₀ data =>
    split at h
    · cases h
    · next hlen =>
      cases h
      exact ⟨t₁, t₀, c₁, c₀, l₃, l₂, l₁, l₀, n₁, n₀, data, rfl, Nat.not_lt.mp hlen, rfl, rfl, rfl⟩
  · cases h

/-- Four octets and the rest. -/
theorem exists_four {l : Mem} (h : 4 ≤ l.length) :
    ∃ a b c d tail, l = a :: b :: c :: d :: tail := by
  obtain _ | ⟨a, _ | ⟨b, _ | ⟨c, _ | ⟨d, tail⟩⟩⟩⟩ := l
  · cases h
  · simp at h
  · simp at h
  · simp at h
  · exact ⟨a, b, c, d, tail, rfl⟩

/-- Over records that are plain, the walk takes an A record of the message, or none. -/
theorem dnsAnswers_plain {maxTtl n : ℕ} {l : Mem} (after : Mem)
    (h : plainAnswers maxTtl n l = true) : dnsAnswers n (l ++ after) = some none ∨
      ∃ rr ∈ aRecords n l, dnsAnswers n (l ++ after) = some (some rr) ∧ min rr.ttl maxTtl ≠ 0 := by
  induction n generalizing l with
  | zero => exact .inl rfl
  | succ n ih =>
    unfold plainAnswers at h
    obtain ⟨hne, h⟩ := Bool.and_eq_true_iff.mp h
    have hne := of_decide_eq_true hne
    cases hname : nameEnd 0 l with
    | none =>
      rw [hname] at h
      cases h
    | some body =>
      have hparse := dnsParseName_append after hne hname
      rw [hname] at h
      change (match record body with
        | some (true, rr, _) => decide (min rr.ttl maxTtl ≠ 0)
        | some (false, _, rest) => plainAnswers maxTtl n rest
        | none => false) = true at h
      cases hrec : record body with
      | none =>
        rw [hrec] at h
        cases h
      | some r =>
        obtain ⟨isA, rr, rest⟩ := r
        obtain ⟨t₁, t₀, c₁, c₀, l₃, l₂, l₁, l₀, n₁, n₀, data, rfl, hlen, hisA, hrr, hrest⟩ :=
          record_eq_some hrec
        have hread : aRecords (n + 1) l = if isA then rr :: aRecords n rest
            else aRecords n rest := by
          rw [aRecords, hname, Option.bind_some, hrec]
          cases isA <;> rfl
        rw [hrec] at h
        unfold dnsAnswers
        rw [hparse]
        simp only [List.cons_append, Option.bind_eq_bind, Option.bind_some, ← hisA]
        cases isA with
        | true =>
          -- The address lies in the message.
          have hfour : ntohs n₁ n₀ = 4 := by
            have := hisA.symm
            unfold isAddress at this
            simpa using (Bool.and_eq_true_iff.mp this).2
          obtain ⟨a, b, c, d, tail, rfl⟩ := exists_four (hfour ▸ hlen)
          refine .inr ⟨rr, ?_, ?_, of_decide_eq_true h⟩
          · rw [hread]
            exact List.mem_cons_self
          · simp only [hrr, if_true, List.cons_append, List.getD_cons_zero, List.getD_cons_succ]
        | false =>
          have hdrop : (data ++ after).drop (ntohs n₁ n₀) = rest ++ after := by
            rw [List.drop_append_of_le_length hlen, hrest]
          rw [if_neg (by decide), hdrop, hread, if_neg (by decide)]
          exact ih h

/-- From a plain message, the walk takes an A record that the message carries. -/
theorem plainMessage_carries {maxTtl n : ℕ} {p after rest : Mem} {rr : ARecord}
    (h : plainMessage maxTtl n p = true) (hn : n ≤ ntohs (p.getD 6 0) (p.getD 7 0))
    (hparse : dnsParseName (p.drop 12 ++ after) = some rest)
    (hwalk : dnsAnswers n (rest.drop 4) = some (some rr)) :
    Carries p rr ∧ min rr.ttl maxTtl ≠ 0 := by
  unfold plainMessage at h
  obtain ⟨hne, h⟩ := Bool.and_eq_true_iff.mp h
  cases hsection : answerSection p with
  | none =>
    rw [hsection] at h
    cases h
  | some l =>
    rw [hsection] at h
    change plainAnswers maxTtl n l = true at h
    -- The question ends in the message.
    have hquestion := hsection
    unfold answerSection at hquestion
    obtain ⟨q, hq, hl⟩ := Option.bind_eq_some_iff.mp hquestion
    have hrest : rest = q ++ after := by
      rw [dnsParseName_append after (of_decide_eq_true hne) hq] at hparse
      exact (Option.some.inj hparse).symm
    split at hl
    · cases hl
    next hlen =>
    cases hl
    have hdrop : rest.drop 4 = q.drop 4 ++ after := by
      rw [hrest, List.drop_append_of_le_length (by omega)]
    rw [hdrop] at hwalk
    obtain hnone | ⟨rr', hmem, hsome, httl⟩ := dnsAnswers_plain after h
    · rw [hnone] at hwalk
      cases hwalk
    · rw [hsome] at hwalk
      cases hwalk
      exact ⟨⟨_, hsection, aRecords_mono hn _ hmem⟩, httl⟩

end Lwip.Dns
