import Lwip.Lib.Ber
import Lwip.Snmp.Reading

/-!
# Octets that are accepted

What the octets from a position on are, when a function of `asn1_dec.c` has a result there. A length
field is a definite one unless it begins with `0x80`. An object identifier is the one that is
encoded exactly if its content is complete, its first octet stands for two components alone, and no
component needs more than 31 bits (`decOid_encoded_iff`); where its last octet says that another one
follows, the function goes on behind the content. No function leaves the payloads of a chain without
empty pbufs between the others (`walk_inside`).
-/

namespace Lwip.Snmp

/-! ## Positions -/

/-- Empty pbufs are at the beginning of the chain at most. -/
def Gapless (p : List (List UInt8)) : Prop := ∀ q ∈ p.dropWhile List.isEmpty, q ≠ []

instance (p : List (List UInt8)) : Decidable (Gapless p) :=
  inferInstanceAs (Decidable (∀ q ∈ p.dropWhile List.isEmpty, q ≠ []))

section Positions

variable {p : List (List UInt8)} {ofs plen : ℕ}

/-- In a chain without empty pbufs an octet of it is found. -/
theorem seek_gapless (before : List (List UInt8)) (hgap : Gapless p)
    (hfits : (before ++ p).flatten.length < 2^16) (hplen : plen = before.flatten.length)
    (hle : plen ≤ ofs) (hlt : ofs < (before ++ p).flatten.length) :
    ∃ x, seek ofs before plen p = some x ∧ x.Valid ∧ x.chain = before ++ p ∧ x.ofs = ofs := by
  induction p generalizing before plen with
  | nil =>
    rw [List.append_nil] at hlt
    omega
  | cons q next ih =>
    cases q with
    | cons b q =>
      -- Behind octets there is no empty pbuf.
      exact seek_spec before plen hgap hfits hplen hle hlt
    | nil =>
      have happ : before ++ [[]] ++ next = before ++ [] :: next := by rw [List.append_assoc]; rfl
      have hsame : plen = (before ++ [[]]).flatten.length := by
        rw [List.flatten_append, List.flatten_singleton, List.append_nil, hplen]
      have hu16 : u16 (plen + ([] : List UInt8).length) = plen := by
        rw [List.flatten_append, List.length_append] at hfits
        exact Nat.mod_eq_of_lt (by rw [List.length_nil]; omega)
      unfold seek
      dsimp only
      rw [hu16, if_neg (Nat.not_lt.mpr hle)]
      rw [← happ] at hfits hlt ⊢
      exact ih _ hgap hfits hsame hle hlt

/-- A walk starts at the octet at `ofs`. -/
theorem walk_start (hgap : Gapless p) (hfits : p.flatten.length < 2^16)
    (hlt : ofs < p.flatten.length) : ∃ x : Ptr, x.Valid ∧ x.rest = p.flatten.drop ofs ∧
      ∀ {α : Type} (m : Walk α), (walk m p ofs).1 = (m x).1 := by
  obtain ⟨x, hseek, hv, hchain, hofs⟩ :
      ∃ x, seek ofs [] 0 p = some x ∧ x.Valid ∧ x.chain = p ∧ x.ofs = ofs :=
    seek_gapless [] hgap hfits rfl (Nat.zero_le ofs) hlt
  have hflat : p.flatten = x.done ++ x.rest := by rw [← x.chain_flatten, hchain]
  have hlen : x.done.length = ofs := hv.done_length.trans hofs
  refine ⟨x, hv, ?_, fun m => ?_⟩
  · rw [hflat, ← hlen, List.drop_left]
  · unfold walk
    rw [hseek]

/-- A walk with a result has started there. -/
theorem walk_ok {α : Type} {m : Walk α} {a : α} (hgap : Gapless p) (hfits : p.flatten.length < 2^16)
    (h : (walk m p ofs).1 = .ok a) :
    ∃ x : Ptr, x.Valid ∧ x.rest = p.flatten.drop ofs ∧ ofs < p.flatten.length ∧
    (m x).1 = .ok a := by
  obtain hlt | hge := Nat.lt_or_ge ofs p.flatten.length
  · obtain ⟨x, hv, hrest, hwalk⟩ := walk_start hgap hfits hlt
    exact ⟨x, hv, hrest, hlt, (hwalk m).symm.trans h⟩
  · have hnone : seek ofs [] 0 p = none := seek_none [] (by omega) (by omega)
    unfold walk at h
    rw [hnone] at h
    cases h

end Positions

section Steps

variable {α : Type} {x x' : Ptr} {b : UInt8} {u : Unit} {l : List UInt8}

/-- An octet that is read is the next one. -/
theorem take_ok (h : x.Valid) (ht : take x = (.ok b, x')) : x' = x ∧ ∃ l, x.rest = b :: l := by
  have hr := h.rest_eq
  rw [take_spec h hr] at ht
  cases ht
  exact ⟨rfl, _, hr⟩

/-- A step goes on to the next octet. -/
theorem step_ok (h : x.Valid) (hs : step x = (.ok u, x')) :
    x'.Valid ∧ ∃ b, x.rest = b :: x'.rest := by
  have hr := h.rest_eq
  cases hbehind : x.p.drop (x.msg_ptr + 1) ++ x.next.flatten with
  | nil =>
    rw [hbehind] at hr
    have hend := step_end h hr
    rw [hs] at hend
    cases hend
  | cons b' bs =>
    rw [hbehind] at hr
    obtain ⟨x'', hstep, hv, hr', -, -⟩ := step_spec h hr
    rw [hstep] at hs
    cases hs
    exact ⟨hv, _, by rw [hr, hr']⟩

/-- An octet is read, and then there is a result. -/
theorem take_bind_ok {f : UInt8 → Walk α} {a : α} (h : x.Valid) (hb : ((take >>= f) x).1 = .ok a) :
    ∃ b l, x.rest = b :: l ∧ (f b x).1 = .ok a := by
  obtain ⟨b, x', ht, hf⟩ := bind_fst_ok hb
  obtain ⟨rfl, l, hl⟩ := take_ok h ht
  exact ⟨b, l, hl, hf⟩

/-- The walk moves on, and then there is a result. -/
theorem step_bind_ok {f : Unit → Walk α} {a : α} (h : x.Valid) (hr : x.rest = b :: l)
    (hb : ((step >>= f) x).1 = .ok a) : ∃ x', x'.Valid ∧ x'.rest = l ∧ (f () x').1 = .ok a := by
  obtain ⟨u, x', hs, hf⟩ := bind_fst_ok hb
  obtain ⟨hv, b', hr'⟩ := step_ok h hs
  rw [hr] at hr'
  exact ⟨x', hv, (List.cons.inj hr').2.symm, hf⟩

end Steps

/-! ## Payloads -/

section Payloads

variable {α β : Type} {m : Walk α} {f : α → Walk β} {p : List (List UInt8)} {ofs : ℕ}

/-- At a position, a walk does not leave the payloads, and with a result it ends at one. -/
def Inside (m : Walk α) : Prop :=
  ∀ x : Ptr, x.Valid → (∀ a x', m x = (.ok a, x') → x'.Valid) ∧ (m x).1 ≠ .error .outOfBounds

/-- A walk stays inside if its parts do. -/
theorem Inside.bind (hm : Inside m) (hf : ∀ a, Inside (f a)) : Inside (m >>= f) := by
  intro x h
  obtain ⟨hok, hin⟩ := hm x h
  cases hmx : m x with
  | mk r x' =>
    cases r with
    | ok a =>
      rw [bind_ok hmx]
      exact hf a x' (hok a x' hmx)
    | error e =>
      rw [hmx] at hin
      rw [bind_error hmx]
      exact ⟨nofun, fun he => hin (congrArg Except.error (Except.error.inj he))⟩

/-- A result stays inside. -/
theorem inside_pure (a : α) : Inside (pure a : Walk α) := by
  intro x h
  refine ⟨fun a' x' hx => ?_, nofun⟩
  cases hx
  exact h

/-- A refusal stays inside. -/
theorem inside_stop : Inside (stop .ARG : Walk α) := fun _ _ => ⟨nofun, nofun⟩

/-- A read stays inside. -/
theorem inside_take : Inside take := by
  intro x h
  rw [take_spec h h.rest_eq]
  refine ⟨fun b x' hx => ?_, nofun⟩
  cases hx
  exact h

/-- A step stays inside. -/
theorem inside_step : Inside step := by
  intro x h
  refine ⟨fun u x' hx => (step_ok h hx).1, ?_⟩
  unfold step
  dsimp only
  split
  · split <;> exact nofun
  · exact nofun

/-- Either branch stays inside. -/
theorem inside_ite {c : Prop} [Decidable c] {m' : Walk α} (hm : Inside m) (hm' : Inside m') :
    Inside (if c then m else m') := by
  split
  · exact hm
  · exact hm'

/-- The loop for the indefinite length stays inside. -/
theorem inside_decIndefinite (fuel zeros length : ℕ) :
    Inside (decIndefinite fuel zeros length) := by
  induction fuel generalizing zeros length with
  | zero => exact inside_stop
  | succ fuel ih =>
    exact inside_step.bind fun _ => inside_take.bind fun b => inside_ite (inside_pure _) (ih _ _)

/-- A length is read inside. -/
theorem inside_decLength : Inside decLength := by
  refine inside_take.bind fun b =>
    inside_ite (inside_pure _) (inside_ite ?_ (inside_ite ?_ (inside_ite ?_ ?_)))
  · exact (inside_decIndefinite _ _ _).bind fun _ => inside_pure _
  · exact inside_step.bind fun _ => inside_take.bind fun _ => inside_pure _
  · exact inside_step.bind fun _ => inside_take.bind fun _ => inside_step.bind fun _ =>
      inside_take.bind fun _ => inside_pure _
  · exact inside_stop

/-- The octets of a number are read inside. -/
theorem inside_decOctets (len value : ℕ) : Inside (decOctets len value) := by
  induction len, value using decOctets.induct with
  | case1 len value ih => exact inside_take.bind fun b => inside_step.bind fun _ => ih b
  | case2 value len hlen =>
    rw [decOctets.eq_2 value len hlen]
    exact inside_take.bind fun _ => inside_pure _

/-- A number is read inside. -/
theorem inside_decU32t (len : ℕ) : Inside (decU32t len) := by
  refine inside_ite (inside_take.bind fun b =>
    inside_ite inside_stop (inside_ite ?_ ?_)) inside_stop
  · exact inside_step.bind fun _ => inside_decOctets _ _
  · exact inside_decOctets _ _

/-- The octets of a signed number are read inside. -/
theorem inside_decSigned (sign : Bool) (len : ℕ) (value : ℤ) :
    Inside (decSigned sign len value) := by
  induction len, value using decSigned.induct sign with
  | case1 len value ih => exact inside_take.bind fun b => inside_step.bind fun _ => ih b
  | case2 value len hlen =>
    rw [decSigned.eq_2 sign value len hlen]
    exact inside_take.bind fun _ => inside_pure _

/-- A signed number is read inside. -/
theorem inside_decS32t (len : ℕ) : Inside (decS32t len) :=
  inside_ite (inside_take.bind fun _ => inside_ite (inside_decSigned _ _ _)
    (inside_decSigned _ _ _)) inside_stop

/-- The octets of a sub-identifier are read inside. -/
theorem inside_decSubId (len : ℕ) (sub_id : ℤ) : Inside (decSubId len sub_id) := by
  induction len, sub_id using decSubId.induct with
  | case1 len sub_id ih =>
    exact inside_take.bind fun b => inside_ite (inside_step.bind fun _ => ih b) (inside_pure _)
  | case2 len sub_id hlen =>
    rw [decSubId.eq_2 len sub_id hlen]
    exact inside_pure _

/-- A sub-identifier is read inside. -/
theorem inside_decElement (old : ℤ) (b : UInt8) (len : ℕ) : Inside (decElement old b len) := by
  refine inside_ite ((inside_decSubId _ _).bind fun r => ?_) (inside_pure _)
  exact inside_take.bind fun _ => inside_ite (inside_pure _) (inside_pure _)

/-- The sub-identifiers are read inside. -/
theorem inside_decSubIds (old : ℕ → ℤ) (room len : ℕ) (id : List ℤ) :
    Inside (decSubIds old room len id) := by
  induction room generalizing len id with
  | zero => exact inside_pure _
  | succ room ih =>
    cases len with
    | zero => exact inside_pure _
    | succ len =>
      refine inside_take.bind fun b => (inside_decElement _ _ _).bind fun ⟨sub_id, len⟩ => ?_
      dsimp only
      split
      · exact inside_step.bind fun _ => ih _ _
      · exact ih _ _

/-- An identifier is read inside. -/
theorem inside_decOid (old : ℕ → ℤ) (len : ℕ) : Inside (decOid old len) := by
  refine inside_ite (inside_pure _) (inside_take.bind fun b => ?_)
  have hsub : Inside (decSubIds old (LWIP_SNMP_OBJ_ID_LEN - 2) (len - 1) (decPrefix b) >>= fun r =>
      if r.1 = 0 then pure r.2 else stop .ARG) :=
    (inside_decSubIds _ _ _ _).bind fun _ => inside_ite (inside_pure _) inside_stop
  dsimp only
  split
  · exact inside_step.bind fun _ => hsub
  · exact hsub

/-- The octets of a string are read inside. -/
theorem inside_decRawOctets (len : ℕ) : Inside (decRawOctets len) := by
  induction len using decRawOctets.induct with
  | case1 len ih =>
    exact inside_take.bind fun _ => inside_step.bind fun _ => ih.bind fun _ => inside_pure _
  | case2 len hlen =>
    rw [decRawOctets.eq_2 len hlen]
    exact inside_take.bind fun _ => inside_pure _

/-- A function of the module does not leave the payloads. -/
theorem walk_inside (hm : Inside m) (hgap : Gapless p) (hfits : p.flatten.length < 2^16) :
    (walk m p ofs).1 ≠ .error .outOfBounds := by
  obtain hlt | hge := Nat.lt_or_ge ofs p.flatten.length
  · obtain ⟨x, hv, -, hwalk⟩ := walk_start hgap hfits hlt
    rw [hwalk m]
    exact (hm x hv).2
  · have hnone : seek ofs [] 0 p = none := seek_none [] (by omega) (by omega)
    unfold walk
    rw [hnone]
    exact nofun

end Payloads

section Fields

variable {x : Ptr} {k n len : ℕ}

/-- A length that is read is definite, unless it begins with `0x80`. -/
theorem decLength_ok (h : x.Valid) (hd : (decLength x).1 = .ok (k, n)) :
    (∃ l, x.rest = 0x80 :: l) ∨ ∃ f l, x.rest = f ++ l ∧ f.length = k ∧ LengthField f n := by
  unfold decLength at hd
  obtain ⟨b, l, hr, hd⟩ := take_bind_ok h hd
  split at hd
  · next hshort =>
    cases hd
    exact .inr ⟨[b], l, hr, rfl, .short b (UInt8.lt_iff_toNat_lt.mp hshort)⟩
  split at hd
  · next hindef => exact .inl ⟨l, by rw [hr, hindef]⟩
  split at hd
  · next hone =>
    obtain ⟨x₁, hv₁, hr₁, hd⟩ := step_bind_ok h hr hd
    obtain ⟨b₁, l₁, hl₁, hd⟩ := take_bind_ok hv₁ hd
    cases hd
    have hfield := LengthField.long b [b₁] (by rw [hone]; rfl) (List.cons_ne_nil _ _)
    have hval : beNat [b₁] = b₁.toNat := Nat.zero_add _
    rw [hval] at hfield
    exact .inr ⟨[b, b₁], l₁, by rw [hr, ← hr₁, hl₁]; rfl, rfl, hfield⟩
  split at hd
  · next htwo =>
    obtain ⟨x₁, hv₁, hr₁, hd⟩ := step_bind_ok h hr hd
    obtain ⟨b₁, l₁, hl₁, hd⟩ := take_bind_ok hv₁ hd
    obtain ⟨x₂, hv₂, hr₂, hd⟩ := step_bind_ok hv₁ hl₁ hd
    obtain ⟨b₂, l₂, hl₂, hd⟩ := take_bind_ok hv₂ hd
    cases hd
    have hfield := LengthField.long b [b₁, b₂] (by rw [htwo]; rfl) (List.cons_ne_nil _ _)
    have hval : beNat [b₁, b₂] = b₁.toNat <<< 8 ||| b₂.toNat := by
      rw [← Nat.shiftLeft_add_eq_or_of_lt b₂.toNat_lt, Nat.shiftLeft_eq]
      show (0 * 2^8 + b₁.toNat) * 2^8 + b₂.toNat = _
      rw [Nat.zero_mul, Nat.zero_add]
    rw [hval] at hfield
    exact .inr ⟨[b, b₁, b₂], l₂, by rw [hr, ← hr₁, hl₁, ← hr₂, hl₂]; rfl, rfl, hfield⟩
  · cases hd

/-- A loop with a result reads `len` octets, if it moves on in each round but the last one. -/
theorem length_le_of_loop {α σ : Type} (loop : ℕ → σ → Walk α)
    (hround : ∀ len s x a, x.Valid → (loop (len + 2) s x).1 = .ok a →
      ∃ b x' s' a', x.rest = b :: x'.rest ∧ x'.Valid ∧ (loop (len + 1) s' x').1 = .ok a')
    {s : σ} {a : α} (h : x.Valid) (hlen : 0 < len) (hd : (loop len s x).1 = .ok a) :
    len ≤ x.rest.length := by
  induction len generalizing x s a with
  | zero => exact absurd hlen (Nat.lt_irrefl 0)
  | succ len ih =>
    cases len with
    | zero =>
      rw [h.rest_eq]
      exact Nat.succ_le_succ (Nat.zero_le _)
    | succ len =>
      obtain ⟨b, x', s', a', hr, hv', hd'⟩ := hround len s x a h hd
      rw [hr]
      exact Nat.succ_le_succ (ih hv' (Nat.succ_pos _) hd')

/-- The octets of a number are there. -/
theorem decOctets_ok {value v : ℕ} (h : x.Valid) (hlen : 0 < len)
    (hd : (decOctets len value x).1 = .ok v) : len ≤ x.rest.length := by
  apply length_le_of_loop decOctets _ h hlen hd
  intro len value x v h hd
  unfold decOctets at hd
  obtain ⟨b, l, hr, hd⟩ := take_bind_ok h hd
  obtain ⟨x', hv', hr', hd⟩ := step_bind_ok h hr hd
  exact ⟨b, x', _, v, hr.trans (congrArg _ hr'.symm), hv', hd⟩

/-- A number that is read is there. -/
theorem decU32t_ok {v : ℕ} (h : x.Valid) (hd : (decU32t len x).1 = .ok v) :
    len ≤ x.rest.length := by
  unfold decU32t at hd
  split at hd
  · next hlen =>
    obtain ⟨b, l, hr, hd⟩ := take_bind_ok h hd
    split at hd
    · cases hd
    split at hd
    · next hzero =>
      obtain ⟨x', hv', hr', hd⟩ := step_bind_ok h hr hd
      have hrest := decOctets_ok hv' (by omega) hd
      rw [hr, List.length_cons, ← hr']
      omega
    · exact decOctets_ok h hlen.1 hd
  · cases hd

/-- The octets of a signed number are there. -/
theorem decSigned_ok {sign : Bool} {value v : ℤ} (h : x.Valid) (hlen : 0 < len)
    (hd : (decSigned sign len value x).1 = .ok v) : len ≤ x.rest.length := by
  apply length_le_of_loop (decSigned sign) _ h hlen hd
  intro len value x v h hd
  unfold decSigned at hd
  obtain ⟨b, l, hr, hd⟩ := take_bind_ok h hd
  obtain ⟨x', hv', hr', hd⟩ := step_bind_ok h hr hd
  exact ⟨b, x', _, v, hr.trans (congrArg _ hr'.symm), hv', hd⟩

/-- A signed number that is read is there. -/
theorem decS32t_ok {v : ℤ} (h : x.Valid) (hd : (decS32t len x).1 = .ok v) :
    len ≤ x.rest.length := by
  unfold decS32t at hd
  split at hd
  · next hlen =>
    obtain ⟨b, l, hr, hd⟩ := take_bind_ok h hd
    split at hd
    · exact decSigned_ok h hlen.1 hd
    · exact decSigned_ok h hlen.1 hd
  · cases hd

/-- A string that is read is there. -/
theorem decRawOctets_ok {raw : List UInt8} (h : x.Valid) (hlen : 0 < len)
    (hd : (decRawOctets len x).1 = .ok raw) : len ≤ x.rest.length := by
  apply length_le_of_loop (fun len (_ : Unit) => decRawOctets len) _ h hlen (s := ()) hd
  intro len _ x raw h hd
  unfold decRawOctets at hd
  obtain ⟨b, l, hr, hd⟩ := take_bind_ok h hd
  obtain ⟨x', hv', hr', hd⟩ := step_bind_ok h hr hd
  obtain ⟨raw', x'', hd, -⟩ := bind_fst_ok hd
  exact ⟨b, x', (), raw', hr.trans (congrArg _ hr'.symm), hv', congrArg Prod.fst hd⟩

end Fields

/-! ## Object identifiers -/

section Oid

variable {x x' : Ptr} {len len' n : ℕ} {part : Option ℕ} {vs : List ℕ} {old : ℕ → ℤ}
  {ident : List ℤ}

/-- The number 0. -/
theorem s32_zero : s32 ((none : Option ℕ).getD 0 : ℕ) = 0 := s32_eq (by decide) (by decide)

/-- The sub-identifier wraps with each octet as it does in the end. -/
theorem s32_octet (v : ℕ) (c : ℕ) : s32 (s32 v * 2^7 + c) = s32 ((v * 2^7 + c : ℕ) : ℤ) := by
  rw [s32, s32, s32, Int.add_bmod_eq_add_bmod_right _ Int.bmod_mul_bmod]
  congr 1

/-- The low bits of an octet with the high bit. -/
theorem and_0x7f_eq {b : UInt8} (h : 128 ≤ b.toNat) : (b &&& 0x7f).toNat = b.toNat - 128 := by
  have hlt := b.toNat_lt
  rw [and_0x7f_toNat]
  omega

/-- The octets of a sub-identifier that is complete, but for its last one. -/
theorem decSubId_ok {sub_id sub_id' : ℤ} (h : x.Valid) (hlen : 0 < len)
    (hd : decSubId len sub_id x = (.ok (sub_id', len'), x')) (hsub : sub_id = s32 (part.getD 0))
    (hvs : base128 part (x.rest.take len) = some vs) :
    x'.Valid ∧ ∃ (v : ℕ) (last : UInt8) (t : List UInt8) (vs' : List ℕ), x'.rest = last :: t ∧
      last.toNat < 128 ∧ sub_id' = s32 v ∧ vs = (v * 2^7 + last.toNat) :: vs' ∧
      base128 none (t.take (len' - 1)) = some vs' ∧ 0 < len' ∧
      x.rest.length + len' = x'.rest.length + len := by
  induction len generalizing x sub_id part with
  | zero => exact absurd hlen (Nat.lt_irrefl 0)
  | succ len ih =>
    have hr := h.rest_eq
    generalize x.p.get ⟨x.msg_ptr, h.lt⟩ = b at hr
    generalize x.p.drop (x.msg_ptr + 1) ++ x.next.flatten = l at hr
    rw [hr, List.take_succ_cons] at hvs
    -- Where the loop ends, the octet at the position is the last one.
    have hend : b.toNat < 128 → x' = x → sub_id' = sub_id → len' = len + 1 → x'.Valid ∧
        ∃ (v : ℕ) (last : UInt8) (t : List UInt8) (vs' : List ℕ), x'.rest = last :: t ∧
        last.toNat < 128 ∧
          sub_id' = s32 v ∧ vs = (v * 2^7 + last.toNat) :: vs' ∧
          base128 none (t.take (len' - 1)) = some vs' ∧ 0 < len' ∧
          x.rest.length + len' = x'.rest.length + (len + 1) := by
      rintro hb rfl rfl rfl
      rw [base128_last hb] at hvs
      obtain ⟨vs', hvs', rfl⟩ := Option.map_eq_some_iff.mp hvs
      exact ⟨h, part.getD 0, b, l, vs', hr, hb, hsub, rfl, hvs', Nat.succ_pos _, rfl⟩
    cases len with
    | zero =>
      obtain hb | hb := Nat.lt_or_ge b.toNat 128
      · cases hd
        exact hend hb rfl rfl rfl
      · rw [base128_more hb] at hvs
        cases hvs
    | succ len =>
      unfold decSubId at hd
      rw [bind_ok (take_spec h hr)] at hd
      by_cases hb : b &&& 0x80 ≠ 0
      · rw [if_pos hb] at hd
        rw [and_0x80_ne_zero] at hb
        rw [base128_more hb] at hvs
        cases hs : step x with
        | mk r x₁ =>
          cases r with
          | error e =>
            rw [bind_error hs] at hd
            cases hd
          | ok u =>
            rw [bind_ok hs] at hd
            obtain ⟨hv₁, b', hr₁⟩ := step_ok h hs
            rw [hr] at hr₁
            obtain ⟨-, rfl⟩ := List.cons.inj hr₁
            have hnext : s32 (sub_id * 2^7 + ((b &&& 0x7f).toNat : ℤ)) =
                s32 ((some (part.getD 0 * 2^7 + (b.toNat - 128))).getD 0 : ℕ) := by
              rw [hsub, and_0x7f_eq hb]
              exact s32_octet _ _
            obtain ⟨hv', v, last, t, vs', hr', hlast, hid, hvs', htail, hpos, hcount⟩ :=
              ih hv₁ (Nat.succ_pos _) hd hnext hvs
            refine ⟨hv', v, last, t, vs', hr', hlast, hid, hvs', htail, hpos, ?_⟩
            rw [hr, List.length_cons]
            omega
      · rw [if_neg hb] at hd
        rw [and_0x80_ne_zero] at hb
        cases hd
        exact hend (Nat.not_le.mp hb) rfl rfl rfl

/-- A sub-identifier that is complete. -/
theorem decElement_ok {e sub_id : ℤ} {b : UInt8} {l : List UInt8} (h : x.Valid)
    (hr : x.rest = b :: l) (hd : decElement e b (len + 1) x = (.ok (sub_id, len'), x'))
    (hvs : base128 none (x.rest.take (len + 1)) = some vs) :
    x'.Valid ∧ ∃ (v : ℕ) (last : UInt8) (t : List UInt8) (vs' : List ℕ), x'.rest = last :: t ∧
      sub_id = s32 v ∧ vs = v :: vs' ∧ base128 none (t.take len') = some vs' ∧
      x.rest.length + len' = x'.rest.length + len := by
  unfold decElement at hd
  by_cases hb : b &&& 0x80 ≠ 0
  · rw [if_pos hb] at hd
    cases hsub : decSubId (len + 1) 0 x with
    | mk r x₁ =>
      cases r with
      | error e =>
        rw [bind_error hsub] at hd
        cases hd
      | ok r =>
        rw [bind_ok hsub] at hd
        obtain ⟨hv₁, v, last, t, vs', hr₁, hlast, hid, rfl, htail, hpos, hcount⟩ :=
          decSubId_ok h (Nat.succ_pos _) hsub s32_zero.symm hvs
        have hbit : last &&& 0x80 = 0 := by
          by_contra hne
          have hge := and_0x80_ne_zero last |>.mp hne
          omega
        dsimp only at hd
        rw [bind_ok (take_spec hv₁ hr₁), if_pos hbit] at hd
        cases hd
        refine ⟨hv₁, _, last, t, vs', hr₁, ?_, rfl, htail, by omega⟩
        rw [hid]
        exact s32_octet _ _
  · rw [if_neg hb] at hd
    rw [and_0x80_ne_zero] at hb
    cases hd
    rw [hr, List.take_succ_cons, base128_last (Nat.not_le.mp hb)] at hvs
    obtain ⟨vs', hvs', rfl⟩ := Option.map_eq_some_iff.mp hvs
    refine ⟨h, _, b, l, vs', hr, ?_, rfl, hvs', rfl⟩
    have hlt := b.toNat_lt
    have hzero : ((none : Option ℕ).getD 0 * 2^7 + b.toNat : ℕ) = b.toNat := by
      rw [Option.getD_none, Nat.zero_mul, Nat.zero_add]
    rw [hzero]
    exact (s32_eq (by omega) (by omega)).symm

/-- Sub-identifiers that are complete are read as they are encoded, modulo `2^32`. -/
theorem decSubIds_ok {room : ℕ} {id r : List ℤ} (h : x.Valid) (hlen : 0 < len)
    (hvs : base128 none (x.rest.take len) = some vs)
    (hd : (decSubIds old room len id x).1 = .ok (0, r)) :
    len ≤ x.rest.length ∧ r = id ++ vs.map fun v : ℕ => s32 v := by
  induction room generalizing x len id vs with
  | zero =>
    cases hd
    exact absurd hlen (Nat.lt_irrefl 0)
  | succ room ih =>
    cases len with
    | zero => exact absurd hlen (Nat.lt_irrefl 0)
    | succ len =>
      unfold decSubIds at hd
      obtain ⟨b, l, hr, hd⟩ := take_bind_ok h hd
      obtain ⟨⟨sub_id, len'⟩, x', hel, hd⟩ := bind_fst_ok hd
      obtain ⟨hv', v, last, t, vs', hr', hid, hcons, htail, hcount⟩ := decElement_ok h hr hel hvs
      rw [hr', List.length_cons] at hcount
      rw [hid] at hd
      rw [hcons]
      dsimp only at hd
      split at hd
      · next hpos =>
        obtain ⟨x'', hv'', hr'', hd⟩ := step_bind_ok hv' hr' hd
        rw [← hr''] at htail
        obtain ⟨hle, rfl⟩ := ih hv'' hpos htail hd
        refine ⟨by rw [hr''] at hle; omega, ?_⟩
        rw [List.append_assoc, List.map_cons, List.singleton_append]
      · next hzero =>
        obtain rfl : len' = 0 := Nat.eq_zero_of_not_pos hzero
        rw [List.take_zero, base128] at htail
        cases htail
        have hd : (decSubIds old room 0 (id ++ [s32 v]) x').1 = .ok (0, r) := hd
        rw [decSubIds_nil] at hd
        cases hd
        exact ⟨by omega, rfl⟩

/-- The components of an identifier, as the code has them. -/
def oidInts (content : List UInt8) : Option (List ℤ) := (oidOf content).map (List.map Int.ofNat)

/-- A content that the code reads as it is encoded: complete, with a first octet that stands for two
components alone, and with components of at most 31 bits. -/
def OidFits (content : List UInt8) : Prop :=
  (∀ b ∈ content.head?, b.toNat < 128) ∧ ∃ vs, base128 none content = some vs ∧ ∀ v ∈ vs, v < 2^31

/-- The first two elements are the arcs of the first octet. -/
theorem decPrefix_eq_rootArcs (b : UInt8) : decPrefix b = (rootArcs b.toNat).map Int.ofNat := by
  rw [decPrefix_eq, rootArcs]
  split
  · rfl
  split
  · next h _ =>
    have hsub : ((b.toNat - 40 : ℕ) : ℤ) = b.toNat - 40 := by omega
    show _ = [1, ((b.toNat - 40 : ℕ) : ℤ)]
    rw [hsub]
  · next h _ =>
    have hsub : ((b.toNat - 80 : ℕ) : ℤ) = b.toNat - 80 := by omega
    show _ = [2, ((b.toNat - 80 : ℕ) : ℤ)]
    rw [hsub]

/-- Components that are complete behind the first octet. -/
theorem decOid_ok {b : UInt8} {c : List UInt8} (h : x.Valid) (hlen : 0 < len)
    (hc : x.rest.take len = b :: c) (hvs : base128 none c = some vs)
    (hd : (decOid old len x).1 = .ok ident) :
    len ≤ x.rest.length ∧ ident = decPrefix b ++ vs.map fun v : ℕ => s32 v := by
  unfold decOid at hd
  rw [if_neg (Nat.ne_of_gt hlen)] at hd
  obtain ⟨b', l, hr, hd⟩ := take_bind_ok h hd
  obtain ⟨len, rfl⟩ : ∃ k, len = k + 1 := ⟨len - 1, by omega⟩
  rw [hr, List.take_succ_cons] at hc
  obtain ⟨rfl, rfl⟩ := List.cons.inj hc
  dsimp only at hd
  rw [Nat.add_sub_cancel] at hd
  have hread : ∀ x₁ : Ptr,
    ((decSubIds old (LWIP_SNMP_OBJ_ID_LEN - 2) len (decPrefix b') >>= fun r =>
      if r.1 = 0 then pure r.2 else stop .ARG : Walk (List ℤ)) x₁).1 = .ok ident →
      (decSubIds old (LWIP_SNMP_OBJ_ID_LEN - 2) len (decPrefix b') x₁).1 = .ok (0, ident) := by
    intro x₁ hd
    obtain ⟨⟨n, r⟩, x₂, hsub, hd⟩ := bind_fst_ok hd
    dsimp only at hd
    split at hd
    · next hn =>
      cases hd
      rw [hsub, hn]
    · cases hd
  split at hd
  · next hpos =>
    obtain ⟨x₁, hv₁, hr₁, hd⟩ := step_bind_ok h hr hd
    rw [← hr₁] at hvs
    obtain ⟨hle, hid⟩ := decSubIds_ok hv₁ hpos hvs (hread x₁ hd)
    refine ⟨?_, hid⟩
    rw [hr, List.length_cons, ← hr₁]
    omega
  · next hzero =>
    obtain rfl : len = 0 := Nat.eq_zero_of_not_pos hzero
    have hd := hread x hd
    rw [decSubIds_nil] at hd
    rw [List.take_zero, base128] at hvs
    cases hd
    cases hvs
    refine ⟨?_, (List.append_nil _).symm⟩
    rw [hr]
    exact Nat.succ_le_succ (Nat.zero_le _)

/-- The elements of an identifier. -/
theorem oidInts_cons {b : UInt8} {c : List UInt8} (hb : b.toNat < 128) :
    oidInts (b :: c) = (base128 none c).map fun vs => decPrefix b ++ vs.map Int.ofNat := by
  have hzero : (none : Option ℕ).getD 0 * 2^7 + b.toNat = b.toNat := by
    rw [Option.getD_none, Nat.zero_mul, Nat.zero_add]
  rw [oidInts, oidOf, base128_last hb, hzero, Option.map_map, Option.map_map]
  congr 1
  funext vs
  rw [decPrefix_eq_rootArcs, ← List.map_append]
  rfl

/-- A value that is stored is an `s32_t`. -/
theorem s32_lt (v : ℤ) : s32 v < 2^31 := Int.bmod_lt (by decide)

/-- An identifier that is read is the one that is encoded exactly if its content fits. -/
theorem decOid_encoded_iff (h : x.Valid) (hd : (decOid old len x).1 = .ok ident) :
    OidFits (x.rest.take len) ↔ len ≤ x.rest.length ∧ oidInts (x.rest.take len) = some ident := by
  obtain rfl | hlen := Nat.eq_zero_or_pos len
  · cases hd
    rw [List.take_zero]
    exact iff_of_true ⟨nofun, [], rfl, nofun⟩ ⟨Nat.zero_le _, rfl⟩
  obtain ⟨b, c, hc⟩ : ∃ b c, x.rest.take len = b :: c := by
    obtain ⟨k, rfl⟩ : ∃ k, len = k + 1 := ⟨len - 1, by omega⟩
    exact ⟨_, _, by rw [h.rest_eq, List.take_succ_cons]⟩
  rw [hc]
  constructor
  · rintro ⟨hhead, vs, hvs, hsmall⟩
    have hb : b.toNat < 128 := hhead b rfl
    rw [base128_last hb] at hvs
    obtain ⟨vs', hvs', rfl⟩ := Option.map_eq_some_iff.mp hvs
    obtain ⟨hle, hident⟩ := decOid_ok h hlen hc hvs' hd
    refine ⟨hle, ?_⟩
    rw [oidInts_cons hb, hvs', Option.map_some, hident]
    refine congrArg (fun l => some (decPrefix b ++ l)) (List.map_congr_left fun v hv => ?_)
    have hlt := hsmall v (List.mem_cons_of_mem _ hv)
    have heq : s32 (v : ℤ) = v := s32_eq (by omega) (by omega)
    exact heq.symm
  · rintro ⟨hle, hident⟩
    obtain hb | hb := Nat.lt_or_ge b.toNat 128
    · rw [oidInts_cons hb] at hident
      obtain ⟨vs', hvs', rfl⟩ := Option.map_eq_some_iff.mp hident
      obtain ⟨-, hsame⟩ := decOid_ok h hlen hc hvs' hd
      have hsame := List.append_cancel_left hsame
      have hcontent : base128 none (b :: c) = _ := base128_last hb
      rw [hvs', Option.map_some] at hcontent
      refine ⟨fun b' hb' => Option.some.inj hb' ▸ hb, _, hcontent, ?_⟩
      intro v hv
      obtain rfl | hv := List.mem_cons.mp hv
      · rw [Option.getD_none]
        omega
      · have heq := List.map_inj_left.mp hsame v hv
        have heq : (v : ℤ) = s32 v := heq
        have hlt := s32_lt v
        omega
    · -- The code takes the first octet for two components, and has one more than there are.
      obtain ⟨as, has, rfl⟩ := Option.map_eq_some_iff.mp hident
      obtain ⟨ids, hids, rfl⟩ := Option.map_eq_some_iff.mp has
      rw [base128_more hb] at hids
      obtain ⟨w, vs', rfl, hpart⟩ := base128_some hids
      obtain ⟨w', hw'⟩ := hpart none
      obtain ⟨-, hsame⟩ := decOid_ok h hlen hc hw' hd
      have hlength := congrArg List.length hsame
      rw [decPrefix_eq_rootArcs, arcs, List.length_append, List.length_map, List.length_map,
        List.length_map,
        List.length_append, rootArcs_length, rootArcs_length, List.length_cons] at hlength
      omega

end Oid

end Lwip.Snmp
