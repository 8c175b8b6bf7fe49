import Lwip.Snmp.Refused

/-!
# The list of bindings of a message is one

When `snmp_pdu_dec_varbindlist` does what it should (`Right`) can be told from what it reads in the
rounds that it comes to (`ReadsRight`): nothing goes wrong in a round (`RoundSafe`), and if no
binding is refused, then the lengths of all bindings agree (`RoundFits`). A length that does not
agree can also make the loop go on for ever.
-/

namespace Lwip.Snmp

/-! ## Rounds that are reached -/

/-- The loop comes from `v` and `s` to `v'` and `s'` by rounds that pass. -/
inductive Reached (m : Malloc) (old : ℕ → ℕ → ℤ) (p : List (List UInt8)) :
    DecVars → Varbinds → DecVars → Varbinds → Prop where
  | refl (v : DecVars) (s : Varbinds) : Reached m old p v s v s
  | next {v v' v'' : DecVars} {s s' s'' : Varbinds} : 0 < v.vb_len →
    decVarbindAlloc m (old (s.lost ++ s.invb).length) p v s = .ok (v', s') →
    Reached m old p v' s' v'' s'' → Reached m old p v s v'' s''

section Reached

variable {m : Malloc} {old : ℕ → ℕ → ℤ} {p : List (List UInt8)} {v v' : DecVars} {s s' : Varbinds}
  {vbs : List VarBind} {fuel n : ℕ} {r : Except Refusal (ℕ × Varbinds)}

/-- The rounds to here, and a run from here on, are a run. -/
theorem Reached.run_back (h : Reached m old p v s v' s')
    (hr : decVarbindsAlloc m old p fuel v' s' = some r) :
    ∃ fuel', decVarbindsAlloc m old p fuel' v s = some r := by
  induction h with
  | refl => exact ⟨fuel, hr⟩
  | next hpos hdec _ ih =>
    obtain ⟨fuel', hr⟩ := ih hr
    refine ⟨fuel' + 1, ?_⟩
    unfold decVarbindsAlloc
    rw [if_pos hpos, hdec]
    exact hr

/-- What a round that is reached and fails does to the run. -/
theorem Reached.run_error {e : Refusal} (h : Reached m old p v s v' s') (hpos : 0 < v'.vb_len)
    (hdec : decVarbindAlloc m (old (s'.lost ++ s'.invb).length) p v' s' = .error e) :
    ∃ fuel, decVarbindsAlloc m old p fuel v s = some (.error e) := by
  have hlast : decVarbindsAlloc m old p 1 v' s' = some (.error e) := by
    unfold decVarbindsAlloc
    rw [if_pos hpos, hdec]
  exact h.run_back hlast

/-- A run fails where a round does. -/
theorem reached_of_error {e : Refusal} (hr : decVarbindsAlloc m old p fuel v s = some (.error e)) :
    ∃ v' s', Reached m old p v s v' s' ∧ 0 < v'.vb_len ∧
      decVarbindAlloc m (old (s'.lost ++ s'.invb).length) p v' s' = .error e := by
  induction fuel generalizing v s with
  | zero => cases hr
  | succ fuel ih =>
    unfold decVarbindsAlloc at hr
    split at hr
    · next hpos =>
      split at hr
      · next e' hdec =>
        cases hr
        exact ⟨v, s, .refl v s, hpos, hdec⟩
      · next v₁ s₁ hdec =>
        obtain ⟨v', s', hreached, hlast⟩ := ih hr
        exact ⟨v', s', .next hpos hdec hreached, hlast⟩
    · cases hr

/-- A run has one result. -/
theorem decVarbindsAlloc_unique {fuel' : ℕ} {r' : Except Refusal (ℕ × Varbinds)}
    (hr : decVarbindsAlloc m old p fuel v s = some r)
    (hr' : decVarbindsAlloc m old p fuel' v s = some r') : r = r' := by
  -- Both runs are the one with more fuel.
  have hsame := (decVarbindsAlloc_mono hr (Nat.le_max_left fuel fuel')).symm.trans
    (decVarbindsAlloc_mono hr' (Nat.le_max_right fuel fuel'))
  exact Option.some.inj hsame

/-- In a run that is accepted all rounds pass. -/
theorem Reached.passes {result : ℕ × Varbinds} (h : Reached m old p v s v' s')
    (hpos : 0 < v'.vb_len) (hr : decVarbindsAlloc m old p fuel v s = some (.ok result)) :
    ∃ v'' s'', decVarbindAlloc m (old (s'.lost ++ s'.invb).length) p v' s' = .ok (v'', s'') := by
  cases hdec : decVarbindAlloc m (old (s'.lost ++ s'.invb).length) p v' s' with
  | ok w => exact ⟨w.1, w.2, rfl⟩
  | error e =>
    obtain ⟨fuel', hr'⟩ := h.run_error hpos hdec
    cases decVarbindsAlloc_unique hr hr'

/-- The count of the list tells how many bindings there are. -/
theorem Reached.counted (h : Reached m old p v s v' s') (hs : s.Counted n) :
    s'.Counted (s'.lost ++ s'.invb).length := by
  induction h generalizing n with
  | refl v s => rwa [hs.length]
  | @next v _ _ s _ _ _ hdec _ ih =>
    cases roundEnds m (old (s.lost ++ s.invb).length) p v hs with
    | passes hok hcounted =>
      cases hdec.symm.trans hok
      exact ih hcounted
    | refuses herr => cases hdec.symm.trans herr
    | fails herr => cases hdec.symm.trans herr

/-- A round that passes reads a binding, also without the empty pbufs. -/
theorem decVarbind_of_passes {old : ℕ → ℤ} (hdec : decVarbindAlloc m old p v s = .ok (v', s')) :
    ∃ vb, decVarbind old (compact p) v = .ok (vb, v') := by
  have hsame := (decVarbindAlloc_compact m old p v s).eq (by rw [hdec]; exact nofun)
  obtain ⟨vb, -, -, hread, -⟩ := decVarbindAlloc_ok (hsame.symm.trans hdec)
  exact ⟨vb, hread⟩

/-- What was reached was reached by rounds that pass. -/
theorem Reached.rounds (h : Reached m old p v s v' s') : ∃ vbs, Rounds (compact p) v vbs v' := by
  induction h with
  | refl v s => exact ⟨[], .nil v⟩
  | next hpos hdec _ ih =>
    obtain ⟨vb, hread⟩ := decVarbind_of_passes hdec
    obtain ⟨vbs, hrounds⟩ := ih
    exact ⟨vb :: vbs, .cons hpos hread hrounds⟩

/-- Where all rounds pass that are reached, there are no others. -/
theorem reached_of_rounds (h : Rounds (compact p) v vbs v')
    (hpass : ∀ w t, Reached m old p v s w t → 0 < w.vb_len →
      ∃ w' t', decVarbindAlloc m (old (t.lost ++ t.invb).length) p w t = .ok (w', t')) :
    ∃ s', Reached m old p v s v' s' := by
  induction h generalizing s with
  | nil v => exact ⟨s, .refl v s⟩
  | @cons v _ _ _ _ _ hpos hread _ ih =>
    obtain ⟨w, t, hdec⟩ := hpass v s (.refl v s) hpos
    obtain ⟨vb, hread'⟩ := decVarbind_of_passes hdec
    obtain rfl := decVarbind_next hread' hread
    obtain ⟨s', hreached⟩ := ih fun w' t' h' => hpass w' t' (.next hpos hdec h')
    exact ⟨s', .next hpos hdec hreached⟩

/-- A length that is read is read also without the empty pbufs. -/
theorem lengthAt_compact_ok {ofs : ℕ} {r : ℕ × ℕ} (h : lengthAt p ofs = .ok r) :
    lengthAt (compact p) ofs = .ok r := by
  rw [← (lengthAt_compact p ofs).eq (by rw [h]; exact nofun), h]

/-- The lengths agree also without the empty pbufs. -/
theorem RoundFits.compact {old : ℕ → ℤ} (h : RoundFits p v)
    (hdec : decVarbindAlloc m old p v s = .ok (v', s')) : RoundFits (compact p) v := by
  obtain ⟨vb, -, -, hread, -⟩ := decVarbindAlloc_ok hdec
  obtain ⟨k, n, k₁, n₁, k₂, n₂, hpassed⟩ := decVarbind_ok hread
  intro k' n' k₁' n₁' k₂' n₂' hseq hname hvalue
  cases hseq.symm.trans (lengthAt_compact_ok hpassed.seq)
  cases hname.symm.trans (lengthAt_compact_ok hpassed.name)
  cases hvalue.symm.trans (lengthAt_compact_ok hpassed.value)
  rw [flatten_compact]
  exact h _ _ _ _ _ _ hpassed.seq hpassed.name hpassed.value

/-- Lengths that agree without the empty pbufs agree. -/
theorem RoundFits.of_compact (h : RoundFits (Snmp.compact p) v) : RoundFits p v := by
  intro k n k₁ n₁ k₂ n₂ hseq hname hvalue
  have hfit := h _ _ _ _ _ _ (lengthAt_compact_ok hseq) (lengthAt_compact_ok hname)
    (lengthAt_compact_ok hvalue)
  rwa [flatten_compact] at hfit

/-! Where there are no empty pbufs. -/

/-- A name is read inside of a chain without empty pbufs. -/
theorem decName_inside {old : ℕ → ℤ} (hgap : Gapless p) (hfits : p.flatten.length < 2^16) :
    decName old p v ≠ .error .outOfBounds := by
  have hbind : ∀ {α β : Type} {x : Except Stop α} {f : α → Except Stop β}, x ≠ .error .outOfBounds →
      (∀ a, f a ≠ .error .outOfBounds) → x >>= f ≠ .error .outOfBounds := by
    intro α β x f hx hf
    cases x with
    | ok a => exact hf a
    | error e => exact fun he => hx (congrArg Except.error (Except.error.inj he))
  have hlength : ∀ ofs, (walk decLength p ofs).1 ≠ .error .outOfBounds :=
    fun ofs => walk_inside inside_decLength hgap hfits
  refine hbind (hlength _) fun r => ?_
  dsimp only
  split
  · exact nofun
  refine hbind (hlength _) fun r₁ => ?_
  split
  · exact nofun
  exact hbind (walk_inside (inside_decOid _ _) hgap hfits) fun oid =>
    hbind (hlength _) fun r₂ => nofun

/-- The room for a value is computed inside of a chain without empty pbufs. -/
theorem valueRoom_inside {old : ℕ → ℤ} (hgap : Gapless p) (hfits : p.flatten.length < 2^16)
    (b : Named) : valueRoom old p b ≠ .error .outOfBounds := by
  unfold valueRoom
  split
  · have hoid : (walk (decOid old b.len) p b.ofs).1 ≠ .error .outOfBounds :=
      walk_inside (inside_decOid _ _) hgap hfits
    cases hids : (walk (decOid old b.len) p b.ofs).1 with
    | ok ids => exact nofun
    | error e => exact fun he => hoid (hids.trans (congrArg Except.error (Except.error.inj he)))
  · split <;> exact nofun

/-- The rounds for the first 256 bindings are safe then, if no assertion can fail. -/
theorem roundSafe_of_gapless {old : ℕ → ℤ} {calls : ℕ} (hgap : Gapless p)
    (hfits : p.flatten.length < 2^16) (hm : m.asserts → ∀ i, m.succeeds i) (hn : n < 256) :
    RoundSafe m old p v n calls := by
  refine ⟨decName_inside hgap hfits, fun b _ => valueRoom_inside hgap hfits b,
    fun b len _ _ _ => decVarValue_inside hgap hfits, fun b len _ _ ha i _ => hm ha _,
    fun k hk => ?_⟩
  cases hk <;> omega

end Reached

/-! ## Lists -/

/-- The variables before the first round, where `k` and `n` are what is read for the length of the
list. -/
def firstRound (ofs k n : ℕ) : DecVars := ⟨SEQ_TYPE, u16 (ofs + (1 + k)), n⟩

/-- The octets from `ofs` to `ofs'` are a list of bindings, and these are in memory. -/
def ListEncoded (octets : List UInt8) (ofs ofs' : ℕ) (s : Varbinds) : Prop :=
  ∃ vbs os list tail, List.Forall₂ InVarbind.Holds (s.lost ++ s.invb) vbs ∧
    List.Forall₂ Encodes os vbs ∧
    Element SEQ_TYPE os.flatten list ∧ octets.drop ofs = list ++ tail ∧ ofs' = ofs + list.length

/-- The function ends. If it accepts octets, they are a list of bindings; if not, then no binding is
left. -/
def Right (m : Malloc) (type : UInt8) (old : ℕ → ℕ → ℤ) (p : List (List UInt8)) (ofs : ℕ) : Prop :=
  ∃ fuel r, pduDecVarbindlistAlloc m type old fuel p ofs = some r ∧
    EndsOr (fun e => e = .ARG []) (fun r => ListEncoded p.flatten ofs r.1 r.2) r

/-- The length of the list is inside of the octets and a definite one, and the lengths of the
bindings agree. -/
structure ListFits (type : UInt8) (p : List (List UInt8)) (ofs : ℕ) : Prop where
  head : ∀ k n, lengthAt p ofs = .ok (k, n) → readType p ofs type = SEQ_TYPE →
    ofs < p.flatten.length ∧ p.flatten[ofs + 1]? ≠ some 0x80
  rounds : ∀ k n, lengthAt p ofs = .ok (k, n) → readType p ofs type = SEQ_TYPE →
    AllFit p (firstRound ofs k n)

/-- The function comes to a round with these variables and bindings. -/
def RoundAt (m : Malloc) (type : UInt8) (old : ℕ → ℕ → ℤ) (p : List (List UInt8)) (ofs : ℕ)
    (v : DecVars) (s : Varbinds) : Prop :=
  ∃ k n, lengthAt p ofs = .ok (k, n) ∧ readType p ofs type = SEQ_TYPE ∧
    Reached m old p (firstRound ofs k n) ⟨[], 0, [], 0⟩ v s ∧ 0 < v.vb_len

/-- No round refuses its binding. -/
def NoneRefused (m : Malloc) (type : UInt8) (old : ℕ → ℕ → ℤ)
    (p : List (List UInt8)) (ofs : ℕ) : Prop :=
  ∀ v s appends, RoundAt m type old p ofs v s →
    ¬ Refuses m (old (s.lost ++ s.invb).length) p v s.calls appends

/-- What the function reads is such that it does what it should. -/
structure ReadsRight (m : Malloc) (type : UInt8) (old : ℕ → ℕ → ℤ) (p : List (List UInt8))
    (ofs : ℕ) : Prop where
  /-- No empty pbuf is entered for the length of the list. -/
  head : lengthAt p ofs ≠ .error .outOfBounds
  rounds : ∀ v s, RoundAt m type old p ofs v s →
    RoundSafe m (old (s.lost ++ s.invb).length) p v (s.lost ++ s.invb).length s.calls
  /-- The length of the list is a definite one inside of the octets. -/
  definite : NoneRefused m type old p ofs → ∀ k n, lengthAt p ofs = .ok (k, n) →
    readType p ofs type = SEQ_TYPE → ofs < p.flatten.length ∧ p.flatten[ofs + 1]? ≠ some 0x80
  lengths : NoneRefused m type old p ofs → ∀ v s, RoundAt m type old p ofs v s → RoundFits p v

section Lists

variable {m : Malloc} {type : UInt8} {old : ℕ → ℕ → ℤ} {p : List (List UInt8)} {ofs ofs' k n : ℕ}
  {s s₁ : Varbinds} {vbs : List VarBind} {v v₁ : DecVars}

/-- The list is refused by its type or its length, or an empty pbuf is entered, or the loop
begins. -/
theorem pduDecVarbindlistAlloc_cases (m : Malloc) (type : UInt8) (old : ℕ → ℕ → ℤ)
    (p : List (List UInt8)) (ofs : ℕ) :
    (∀ fuel, pduDecVarbindlistAlloc m type old fuel p ofs = some (.error (.ARG []))) ∧
        lengthAt p ofs ≠ .error .outOfBounds ∧
        (∀ k n, lengthAt p ofs = .ok (k, n) → readType p ofs type ≠ SEQ_TYPE) ∨
      (∀ fuel, pduDecVarbindlistAlloc m type old fuel p ofs = some (.error .outOfBounds)) ∧
        lengthAt p ofs = .error .outOfBounds ∨
      ∃ k n, lengthAt p ofs = .ok (k, n) ∧ readType p ofs type = SEQ_TYPE ∧ ∀ fuel,
        pduDecVarbindlistAlloc m type old fuel p ofs =
          decVarbindsAlloc m old p fuel (firstRound ofs k n) ⟨[], 0, [], 0⟩ := by
  unfold pduDecVarbindlistAlloc
  cases hl : lengthAt p ofs with
  | error e =>
    rw [lengthAt] at hl
    rw [hl]
    cases e with
    | ARG =>
      refine .inl ⟨fun _ => rfl, fun h => ?_, fun _ _ h => ?_⟩
      · cases h
      · cases h
    | outOfBounds => exact .inr (.inl ⟨fun _ => rfl, rfl⟩)
  | ok r =>
    obtain ⟨k, n⟩ := r
    rw [lengthAt] at hl
    rw [hl]
    by_cases htype : readType p ofs type = SEQ_TYPE
    · refine .inr (.inr ⟨k, n, rfl, htype, fun fuel => ?_⟩)
      dsimp only [Varbinds.check]
      rw [htype]
      exact if_neg fun hne => hne rfl
    · refine .inl ⟨fun _ => if_pos htype, fun h => ?_, fun _ _ _ => htype⟩
      cases h

/-- Rounds to the end have read a list of bindings, if the lengths agree. -/
theorem listEncoded_of_rounds (hgap : Gapless p) (hfits : p.flatten.length < 2^16)
    (h : ListFits type p ofs)
    (hl : lengthAt p ofs = .ok (k, n)) (htype : readType p ofs type = SEQ_TYPE)
    (hr : Rounds p (firstRound ofs k n) vbs v) (hend : v.vb_len = 0)
    (hmem : List.Forall₂ InVarbind.Holds (s.lost ++ s.invb) vbs) :
    ListEncoded p.flatten ofs v.ofs s := by
  obtain ⟨hlt, hdef⟩ := h.head k n hl htype
  obtain hindef | ⟨f, l, hf, rfl, hfield⟩ := lengthAt_ok hgap hfits hlt hl
  · exact absurd hindef hdef
  have hbegin := getElem?_eq_readType hgap hfits hlt type
  rw [htype] at hbegin
  have hu16 : u16 (ofs + (1 + f.length)) = ofs + (1 + f.length) := by
    have hlength := congrArg List.length hf
    rw [List.length_drop, List.length_append] at hlength
    exact Nat.mod_eq_of_lt (by omega)
  obtain ⟨os, hos, hdrop, hofs, hlen⟩ :=
    hr.encoded hgap hfits (lengthAt_lt hl) (h.rounds _ _ hl htype)
  dsimp only [firstRound] at hdrop hofs hlen
  rw [hu16] at hdrop hofs
  obtain rfl : os.flatten.length = n := by omega
  have hbehind : p.flatten.drop (ofs + (1 + f.length)) = l := by
    rw [← Nat.add_assoc, ← List.drop_drop, hf, List.drop_left]
  obtain ⟨hlist, htail⟩ := element_drop hfield hbegin hf (by rw [← hbehind, hdrop, List.take_left])
  refine ⟨vbs, os, _, _, hmem, hos, hlist, htail, ?_⟩
  rw [hofs, List.length_cons, List.length_append]
  omega

/-- If rounds to the end have read a list of bindings, then the lengths agree. -/
theorem listFits_of_encoded (hgap : Gapless p) (hfits : p.flatten.length < 2^16)
    (hl : lengthAt p ofs = .ok (k, n)) (hr : Rounds p (firstRound ofs k n) vbs v)
    (hend : v.vb_len = 0)
    (hmem : List.Forall₂ InVarbind.Holds (s.lost ++ s.invb) vbs)
    (h : ListEncoded p.flatten ofs ofs' s) : ListFits type p ofs := by
  obtain ⟨vbs', os, list, tail, hmem', hos, hlist, hdrop, -⟩ := h
  have hunique : Relator.RightUnique InVarbind.Holds := by
    rintro a ⟨ident, value⟩ ⟨ident', value'⟩ ⟨hident, -, hvalue⟩ ⟨hident', -, hvalue'⟩
    rw [hident] at hident'
    rw [hvalue] at hvalue'
    cases hident'
    cases hvalue'
    rfl
  obtain rfl : vbs = vbs' := List.right_unique_forall₂' hunique hmem hmem'
  obtain ⟨hn, hlen, hbegin, hdef, hbehind⟩ := lengthAt_element hgap hfits hl hlist hdrop
  have hlt := (List.getElem?_eq_some_iff.mp hbegin).1
  have hlength := congrArg List.length hdrop
  rw [List.length_drop, List.length_append] at hlength
  have hu16 : u16 (ofs + (1 + k)) = ofs + 1 + k := by
    rw [Nat.add_assoc]
    exact Nat.mod_eq_of_lt (by omega)
  have hfit : AllFit p (firstRound ofs k n) := by
    have hfirst : p.flatten.drop (firstRound ofs k n).ofs = os.flatten ++ tail := by
      dsimp only [firstRound]
      rw [hu16, hbehind]
    exact hr.allFit hend hgap hfits (lengthAt_lt hl) hos hfirst hn
  refine ⟨fun _ _ _ _ => ⟨hlt, hdef⟩, fun k' n' hl' _ => ?_⟩
  cases hl'.symm.trans hl
  exact hfit

/-! ## When the function does what it should -/

/-- Where a round is reached, all before it have been counted. -/
theorem RoundAt.roundEnds (h : RoundAt m type old p ofs v s) :
    RoundEnds m (old (s.lost ++ s.invb).length) p v s (s.lost ++ s.invb).length := by
  obtain ⟨k, n, -, -, hreached, -⟩ := h
  exact Snmp.roundEnds m _ p v (hreached.counted (counted_nil 0))

/-- What the function reads, if it does what it should. -/
theorem readsRight_of_right (hfits : p.flatten.length < 2^16) (h : Right m type old p ofs) :
    ReadsRight m type old p ofs := by
  obtain ⟨fuel, r, hrun, hr⟩ := h
  obtain ⟨-, hhead, hnot⟩ | ⟨hout, -⟩ | ⟨k, n, hl, htype, heq⟩ :=
    pduDecVarbindlistAlloc_cases m type old p ofs
  · -- There is no round.
    have hno : ∀ {v s}, ¬ RoundAt m type old p ofs v s := by
      rintro v s ⟨k, n, hl, htype, -⟩
      exact hnot k n hl htype
    exact ⟨hhead, fun v s hv => absurd hv hno, fun _ k n hl htype => absurd htype (hnot k n hl),
      fun _ v s hv => absurd hv hno⟩
  · cases hrun.symm.trans (hout fuel)
    cases hr
  rw [heq] at hrun
  have hreach : ∀ {v s}, RoundAt m type old p ofs v s →
      Reached m old p (firstRound ofs k n) ⟨[], 0, [], 0⟩ v s ∧ 0 < v.vb_len := by
    rintro v s ⟨k', n', hl', -, hreached⟩
    cases hl'.symm.trans hl
    exact hreached
  -- The run ends as each round says that is reached and fails.
  have hfail : ∀ {v s e}, RoundAt m type old p ofs v s →
      decVarbindAlloc m (old (s.lost ++ s.invb).length) p v s = .error e → e = .ARG [] := by
    intro v s e hv hdec
    obtain ⟨hreached, hpos⟩ := hreach hv
    obtain ⟨fuel', hrun'⟩ := hreached.run_error hpos hdec
    cases decVarbindsAlloc_unique hrun hrun'
    exact hr
  have haccepted : NoneRefused m type old p ofs → ∃ result, r = .ok result := by
    intro hnone
    cases r with
    | ok result => exact ⟨result, rfl⟩
    | error e =>
      obtain ⟨v, s, hreached, hpos, hdec⟩ := reached_of_error hrun
      have hv : RoundAt m type old p ofs v s := ⟨k, n, hl, htype, hreached, hpos⟩
      cases hv.roundEnds with
      | passes hok => cases hdec.symm.trans hok
      | refuses _ _ hrefuses => exact absurd hrefuses (hnone v s _ hv)
      | fails herr hne => exact absurd (hfail hv herr) hne
  have hfit : NoneRefused m type old p ofs → ListFits type (compact p) ofs := by
    intro hnone
    obtain ⟨result, rfl⟩ := haccepted hnone
    obtain hsame | hout := decVarbindsAlloc_compact m old p fuel (firstRound ofs k n) ⟨[], 0, [], 0⟩
    · obtain ⟨vbs, as, v, hrounds, hzero, -, has, hall⟩ :=
        decVarbindsAlloc_ok (hsame.symm.trans hrun)
      have hall : result.2.lost ++ result.2.invb = as := hall
      rw [← hall] at has
      have hlist : ListEncoded (compact p).flatten ofs result.1 result.2 := by
        rw [flatten_compact]
        exact hr
      exact listFits_of_encoded (gapless_compact p) (by rwa [flatten_compact])
        (lengthAt_compact_ok hl) hrounds hzero has hlist
    · cases hrun.symm.trans hout
  refine ⟨by rw [hl]; exact nofun, fun v s hv => ?_, fun hnone k' n' hl' _ => ?_,
    fun hnone v s hv => ?_⟩
  · cases hv.roundEnds with
    | passes _ _ hsafe => exact hsafe
    | refuses _ hsafe => exact hsafe
    | fails herr hne => exact absurd (hfail hv herr) hne
  · have hhead := (hfit hnone).head k' n' (lengthAt_compact_ok hl')
      (by rw [readType_compact, htype])
    rwa [flatten_compact] at hhead
  · obtain ⟨hreached, hpos⟩ := hreach hv
    obtain ⟨result, rfl⟩ := haccepted hnone
    obtain ⟨v', s', hdec⟩ := hreached.passes hpos hrun
    obtain ⟨vb, hread⟩ := decVarbind_of_passes hdec
    obtain ⟨vbs, hrounds⟩ := hreached.rounds
    exact ((hfit hnone).rounds k n (lengthAt_compact_ok hl) (by rw [readType_compact, htype])
      _ _ _ _ _ hrounds hpos hread).of_compact

/-- A list without a binding that is refused is accepted, and it is a list of bindings. -/
theorem right_of_noneRefused (hfits : p.flatten.length < 2^16) (h : ReadsRight m type old p ofs)
    (hnone : NoneRefused m type old p ofs) (hl : lengthAt p ofs = .ok (k, n))
    (htype : readType p ofs type = SEQ_TYPE)
    (heq : ∀ fuel, pduDecVarbindlistAlloc m type old fuel p ofs =
      decVarbindsAlloc m old p fuel (firstRound ofs k n) ⟨[], 0, [], 0⟩) :
      Right m type old p ofs := by
  have hpass : ∀ v s, Reached m old p (firstRound ofs k n) ⟨[], 0, [], 0⟩ v s → 0 < v.vb_len →
      ∃ v' s', decVarbindAlloc m (old (s.lost ++ s.invb).length) p v s = .ok (v', s') := by
    intro v s hreached hpos
    have hv : RoundAt m type old p ofs v s := ⟨k, n, hl, htype, hreached, hpos⟩
    cases hv.roundEnds with
    | passes hok => exact ⟨_, _, hok⟩
    | refuses _ _ hrefuses => exact absurd hrefuses (hnone v s _ hv)
    | fails _ _ hnot => exact absurd (h.rounds v s hv) hnot
  have hgap := gapless_compact p
  have hfits' : (compact p).flatten.length < 2^16 := by rwa [flatten_compact]
  have hl' : lengthAt (compact p) ofs = .ok (k, n) := lengthAt_compact_ok hl
  have hfit : AllFit (compact p) (firstRound ofs k n) := by
    intro vbs v' _ _ _ hrounds hpos _
    obtain ⟨s', hreached⟩ := reached_of_rounds hrounds hpass
    obtain ⟨w, t, hdec⟩ := hpass v' s' hreached hpos
    exact (h.lengths hnone v' s' ⟨k, n, hl, htype, hreached, hpos⟩).compact hdec
  have hlist : ListFits type (compact p) ofs := by
    refine ⟨fun k' n' _ _ => ?_, fun k' n' hl'' _ => ?_⟩
    · rw [flatten_compact]
      exact h.definite hnone k n hl htype
    · cases hl''.symm.trans hl'
      exact hfit
  obtain ⟨r, hr⟩ : ∃ r, decVarbindsAlloc m old (compact p) (n + 1) (firstRound ofs k n)
      ⟨[], 0, [], 0⟩ = some r :=
    decVarbindsAlloc_ends hgap hfits' (lengthAt_lt hl) hfit (Nat.lt_succ_self _)
  -- No round fails, and so this is the run of the chain with its empty pbufs too.
  have hrun : decVarbindsAlloc m old p (n + 1) (firstRound ofs k n) ⟨[], 0, [], 0⟩ = some r ∧
      ∀ e, r ≠ .error e := by
    have hok : ∀ e, decVarbindsAlloc m old p (n + 1) (firstRound ofs k n) ⟨[], 0, [], 0⟩ ≠
        some (.error e) := by
      intro e he
      obtain ⟨v, s, hreached, hpos, hdec⟩ := reached_of_error he
      obtain ⟨v', s', hok⟩ := hpass v s hreached hpos
      cases hdec.symm.trans hok
    obtain hsame | hout :=
      decVarbindsAlloc_compact m old p (n + 1) (firstRound ofs k n) ⟨[], 0, [], 0⟩
    · rw [hsame] at hok ⊢
      exact ⟨hr, fun e he => hok e (hr.trans (congrArg some he))⟩
    · exact absurd hout (hok _)
  obtain ⟨hrun, hne⟩ := hrun
  cases r with
  | error e => exact absurd rfl (hne e)
  | ok result =>
    refine ⟨n + 1, _, (heq _).trans hrun, ?_⟩
    obtain ⟨vbs, as, v, hrounds, hzero, hofs, has, hall⟩ := decVarbindsAlloc_ok hr
    have hall : result.2.lost ++ result.2.invb = as := hall
    rw [← hall] at has
    have hencoded := listEncoded_of_rounds hgap hfits' hlist hl' (by rw [readType_compact, htype])
      hrounds hzero has
    rw [hofs, flatten_compact] at hencoded
    exact hencoded

/-- The reading is right if what it comes to is. -/
theorem right_of_readsRight (hfits : p.flatten.length < 2^16) (h : ReadsRight m type old p ofs) :
    Right m type old p ofs := by
  obtain ⟨hrefused, -⟩ | ⟨-, hout⟩ | ⟨k, n, hl, htype, heq⟩ :=
    pduDecVarbindlistAlloc_cases m type old p ofs
  · exact ⟨0, _, hrefused 0, rfl⟩
  · exact absurd hout h.head
  by_cases hnone : NoneRefused m type old p ofs
  · exact right_of_noneRefused hfits h hnone hl htype heq
  · simp only [NoneRefused, not_forall, not_not] at hnone
    obtain ⟨v, s, appends, hv, hrefuses⟩ := hnone
    cases hv.roundEnds with
    | passes _ _ _ hnot => exact absurd hrefuses (hnot _)
    | fails _ _ hnot => exact absurd (h.rounds v s hv) hnot
    | refuses hdec =>
      obtain ⟨k', n', hl', -, hreached, hpos⟩ := hv
      cases hl'.symm.trans hl
      obtain ⟨fuel, hrun⟩ := hreached.run_error hpos hdec
      exact ⟨fuel, _, (heq fuel).trans hrun, rfl⟩

/-- Where the first round reads the only binding, it is the only round. -/
theorem roundAt_single (hl : lengthAt p ofs = .ok (k, n))
    (hround : decVarbindAlloc m (old 0) p (firstRound ofs k n) ⟨[], 0, [], 0⟩ = .ok (v₁, s₁))
    (hend : v₁.vb_len = 0) (h : RoundAt m type old p ofs v s) :
    v = firstRound ofs k n ∧ s = ⟨[], 0, [], 0⟩ := by
  obtain ⟨k', n', hl', -, hreached, hpos⟩ := h
  cases hl'.symm.trans hl
  cases hreached with
  | refl => exact ⟨rfl, rfl⟩
  | next _ hdec hreached =>
    cases hdec.symm.trans hround
    cases hreached with
    | refl => omega
    | next hpos' => omega

/-- A list of one binding that is accepted fits if the function does what it should. -/
theorem roundFits_single (h : Right m type old p ofs) (hfits : p.flatten.length < 2^16)
    (hl : lengthAt p ofs = .ok (k, n)) (htype : readType p ofs type = SEQ_TYPE) (hpos : 0 < n)
    (hround : decVarbindAlloc m (old 0) p (firstRound ofs k n) ⟨[], 0, [], 0⟩ = .ok (v₁, s₁))
    (hend : v₁.vb_len = 0) : RoundFits p (firstRound ofs k n) := by
  have hat : RoundAt m type old p ofs (firstRound ofs k n) ⟨[], 0, [], 0⟩ :=
    ⟨k, n, hl, htype, .refl _ _, hpos⟩
  refine (readsRight_of_right hfits h).lengths (fun v s appends hv hrefuses => ?_) _ _ hat
  obtain ⟨rfl, rfl⟩ := roundAt_single hl hround hend hv
  cases hv.roundEnds with
  | passes _ _ _ hnot => exact hnot _ hrefuses
  | refuses herr => cases hround.symm.trans herr
  | fails herr => cases hround.symm.trans herr

def exampleList : List UInt8 := [0x30, 0x09, 0x30, 0x07, 0x06, 0x03, 0x2b, 0x06, 0x01, 0x05, 0x00]

def exampleBinding : VarBind := ⟨[1, 3, 6, 1], .NUL⟩

/-- There is always memory. -/
def enough : Malloc := ⟨fun _ => true, true⟩

/-- The round of the example. -/
theorem exampleList_round (old : ℕ → ℤ) :
    decVarbind old [exampleList] (firstRound 0 1 9) = .ok (exampleBinding, ⟨NUL_TYPE, 11, 0⟩) := by
    rfl

/-- The length of the example. -/
theorem exampleList_length : lengthAt [exampleList] 0 = .ok (1, 9) := by rfl

/-- The list of the example fits. -/
theorem exampleList_fits : ListFits 0 [exampleList] 0 := by
  have hname : Element OID_TYPE [0x2b, 0x06, 0x01] [0x06, 0x03, 0x2b, 0x06, 0x01] :=
    ⟨[0x03], .short 0x03 (by decide), rfl⟩
  have hvalue : Element NUL_TYPE [] [0x05, 0x00] := ⟨[0x00], .short 0x00 (by decide), rfl⟩
  have hbinding : Encodes (exampleList.drop 2) exampleBinding :=
    ⟨_, _, _, _, hname, hvalue, ⟨[0x07], .short 0x07 (by decide), rfl⟩, by decide,
      fun _ => rfl, nofun⟩
  have hlist : Element SEQ_TYPE [exampleList.drop 2].flatten exampleList :=
    ⟨[0x09], .short 0x09 (by decide), rfl⟩
  have hmem : List.Forall₂ InVarbind.Holds [⟨[1, 3, 6, 1], NUL_TYPE, 0, some .NUL⟩]
      [exampleBinding] :=
    .cons ⟨rfl, rfl, rfl⟩ .nil
  exact listFits_of_encoded (s := ⟨[⟨[1, 3, 6, 1], NUL_TYPE, 0, some .NUL⟩], 1, [], 2⟩)
    (by decide) (by decide)
    exampleList_length (.cons (by decide) (exampleList_round fun _ => 0) (.nil _)) rfl hmem
    ⟨_, _, _, [], hmem, .cons hbinding .nil, hlist, rfl, rfl⟩

def shortList : List UInt8 := [0x30, 0x06, 0x30, 0x01, 0x06, 0x00, 0x05, 0x00]
def openList : List UInt8 := [0x30, 0x08, 0x30, 0x06, 0x06, 0x02, 0x2b, 0x81, 0x05, 0x00]
def endlessList : List UInt8 := [0x30, 0x08, 0x30, 0x06, 0x06, 0x00, 0x05, 0x82, 0xff, 0xf8]

/-- Each round ends where it has begun. -/
theorem endlessList_round (type : UInt8) (old : ℕ → ℤ) (s : Varbinds) :
    ∃ s', decVarbindAlloc enough old [endlessList] ⟨type, 2, 8⟩ s = .ok (⟨NUL_TYPE, 2, 8⟩, s') := by
  have hseq : (walk decLength [endlessList] (u16 (2 + 1))).1 = .ok (1, 6) := by rfl
  have hseqtype : readType [endlessList] 2 type = SEQ_TYPE := by rfl
  have hname : (walk decLength [endlessList] (u16 (u16 (2 + (1 + 1)) + 1))).1 = .ok (1, 0) := by rfl
  have hnametype : readType [endlessList] (u16 (2 + (1 + 1))) SEQ_TYPE = OID_TYPE := by rfl
  have hoid : (walk (decOid old 0) [endlessList] (u16 (u16 (2 + (1 + 1)) + 1 + 1))).1 = .ok [] := by
    rfl
  have hvalue : (walk decLength [endlessList] (u16 (u16 (u16 (2 + (1 + 1)) + (1 + 1 + 0)) + 1))).1 =
    .ok (3, 65528) := by rfl
  have hvaltype : readType [endlessList] (u16 (u16 (2 + (1 + 1)) + (1 + 1 + 0))) OID_TYPE =
      NUL_TYPE := by rfl
  have hdec : decValueAlloc enough old [endlessList] s [] NUL_TYPE
      (u16 (u16 (u16 (2 + (1 + 1)) + (1 + 1 + 0)) + 1 + 3)) 65528 =
    .ok ({ s with calls := s.calls + 1 }.tailAdd ⟨[], NUL_TYPE, 0, some .NUL⟩) := by rfl
  refine ⟨{ s with calls := s.calls + 1 }.tailAdd ⟨[], NUL_TYPE, 0, some .NUL⟩, ?_⟩
  unfold decVarbindAlloc
  refine bind_eq_ok.mpr ⟨(1, 6), congrArg s.check hseq, ?_⟩
  dsimp only
  rw [hseqtype, if_neg (by decide)]
  refine bind_eq_ok.mpr ⟨(1, 0), congrArg s.check hname, ?_⟩
  dsimp only
  rw [hnametype, if_neg (by decide)]
  refine bind_eq_ok.mpr ⟨[], congrArg s.check hoid, ?_⟩
  refine bind_eq_ok.mpr ⟨(3, 65528), congrArg s.check hvalue, ?_⟩
  dsimp only
  rw [hvaltype]
  exact bind_eq_ok.mpr ⟨_, hdec, rfl⟩

/-- The loop over the endless list does not end. -/
theorem endlessList_rounds (fuel : ℕ) (type : UInt8) (old : ℕ → ℕ → ℤ) (s : Varbinds) :
    decVarbindsAlloc enough old [endlessList] fuel ⟨type, 2, 8⟩ s = none := by
  induction fuel generalizing type s with
  | zero => rfl
  | succ fuel ih =>
    obtain ⟨s', hround⟩ := endlessList_round type (old (s.lost ++ s.invb).length) s
    unfold decVarbindsAlloc
    rw [if_pos (Nat.succ_pos 7), hround]
    exact ih NUL_TYPE s'

/-- An empty pbuf that no walk enters does nothing. -/
example : ReadsRight enough 0 (fun _ _ => 0) [[0x30, 0x00], []] 0 := by
  have hlength : lengthAt [[0x30, 0x00], []] 0 = .ok (1, 0) := by rfl
  have hno : ∀ v s, ¬ RoundAt enough 0 (fun _ _ => 0) [[0x30, 0x00], []] 0 v s := by
    rintro v s ⟨k, n, hl, -, hreached, hpos⟩
    cases hl.symm.trans hlength
    cases hreached with
    | refl => exact absurd hpos (Nat.lt_irrefl 0)
    | next hpos' => exact absurd hpos' (Nat.lt_irrefl 0)
  exact ⟨by rw [hlength]; exact nofun, fun v s hv => absurd hv (hno v s),
    fun _ _ _ _ _ => by decide, fun _ v s hv => absurd hv (hno v s)⟩

end Lists

end Lwip.Snmp
