import Lwip.Snmp.Message
import Lwip.Snmp.RoundTrip

/-!
# Fields that are written in turn

Each field of a message is written by a walk of its own, and the next one starts where the count of
the field says. If every field writes as many octets as are counted (`Emits`), then the fields
together write one string of octets (`encFields_spec`).
-/

namespace Lwip.Snmp

/-- Wherever there is room for the octets `bs`, a walk writes them from the offset on, and nothing
else. -/
def Writes (m : Walk Unit) (bs : List UInt8) : Prop :=
  ∀ (c : Chain) (ofs : ℕ), ofs + bs.length ≤ c.octets.length →
    ∃ c' : Chain, (walk m c.pbufs ofs).2 = c'.pbufs ∧
    c'.pbufs.map List.length = c.pbufs.map List.length ∧
      c'.octets = c.octets.take ofs ++ bs ++ c.octets.drop (ofs + bs.length)

section Writes

variable {m : Walk Unit} {bs bs' : List UInt8}

/-- A list of octets is written. -/
theorem writes_writeAll (h : bs ≠ []) : Writes (writeAll bs) bs := by
  intro c ofs hroom
  obtain ⟨c', hwalk, hshape, hoctets⟩ := walk_writeAll c h hroom
  exact ⟨c', by rw [hwalk], hshape, hoctets⟩

/-- The pbuf is one of the chain. -/
theorem seek_chain {ofs : ℕ} {before p : List (List UInt8)} {plen : ℕ} {x : Ptr}
    (h : seek ofs before plen p = some x) : x.chain = before ++ p := by
  induction p generalizing before plen with
  | nil => cases h
  | cons q next ih =>
    unfold seek at h
    dsimp only at h
    split at h
    · cases h
      rfl
    · rw [ih h, List.append_assoc]
      rfl

/-- Nothing is written by a walk that stays where it is. -/
theorem writes_nil (h : ∀ x, (m x).2 = x) : Writes m [] := by
  intro c ofs _
  refine ⟨c, ?_, rfl, by simp⟩
  unfold walk
  split
  · rfl
  · rename_i x hseek
    show (m x).2.chain = c.pbufs
    rw [h x]
    exact seek_chain hseek

/-- Where there is room for more octets, fewer are not the same. -/
theorem Writes.length_not_lt (h : Writes m bs) (h' : Writes m bs') (hfits : bs'.length < 2^16) :
    ¬ bs.length < bs'.length := by
  intro hlt
  have hsame : ∀ d : UInt8, bs' = bs ++ List.replicate (bs'.length - bs.length) d := by
    intro d
    have hne : ∀ p ∈ [List.replicate bs'.length d], p ≠ [] := by
      intro p hp hnil
      rw [List.mem_singleton.mp hp, List.replicate_eq_nil_iff] at hnil
      omega
    have htot : [List.replicate bs'.length d].flatten.length < 2^16 := by simpa using hfits
    have hoct : (Chain.mk _ hne htot).octets = List.replicate bs'.length d := List.flatten_singleton
    have hlen : (Chain.mk _ hne htot).octets.length = bs'.length := by
      rw [hoct, List.length_replicate]
    obtain ⟨c₁, hw₁, -, hc₁⟩ := h ⟨_, hne, htot⟩ 0 (by omega)
    obtain ⟨c₂, hw₂, -, hc₂⟩ := h' ⟨_, hne, htot⟩ 0 (by omega)
    have heq : c₁.octets = c₂.octets := congrArg List.flatten (hw₁.symm.trans hw₂)
    rw [hc₁, hc₂, hoct] at heq
    simpa using heq.symm
  have heq := List.append_cancel_left ((hsame 0).symm.trans (hsame 1))
  obtain ⟨-, hzero | hone⟩ := List.replicate_inj.mp heq
  · omega
  · exact absurd hone (by decide)

end Writes

/-- A type is written. -/
theorem writes_type (type : UInt8) : Writes (encType type) [type] := writes_writeAll
    (List.cons_ne_nil type [])

/-- A length is written. -/
theorem writes_length (length : ℕ) : Writes (encLength length) (lengthOctets length) := by
  rw [encLength_eq]
  apply writes_writeAll
  unfold lengthOctets
  split
  · exact List.cons_ne_nil _ _
  split <;> exact List.cons_ne_nil _ _

/-- A signed number is written. -/
theorem writes_s32t (n : ℕ) (value : ℤ) : Writes (encS32t n value) (valueOctets value n) := by
  unfold encS32t
  rw [encValue_eq]
  exact writes_writeAll (valueOctets_ne_nil value n)

/-- A number is written. -/
theorem writes_u32t (n value : ℕ) : Writes (encU32t n value) (u32tOctets n value) := by
  rw [encU32t_eq]
  apply writes_writeAll
  unfold u32tOctets
  split
  · exact List.cons_ne_nil _ _
  · exact valueOctets_ne_nil value n

/-- A string is written. -/
theorem writes_raw (raw : List UInt8) : Writes (encRaw raw) raw := by
  by_cases hnil : raw = []
  · subst hnil
    exact writes_nil fun _ => rfl
  · rw [encRaw_eq]
    exact writes_writeAll hnil

/-- Two elements are written also where the walk fails behind them. -/
theorem writes_pair (a b : ℤ) : Writes (encOid [a, b]) [prefixOctet a b] := by
  intro c ofs hroom
  rw [List.length_singleton] at hroom
  obtain ⟨c', hwrite, hshape, hoctets⟩ :=
    walk_writeAll c (List.cons_ne_nil (prefixOctet a b) []) hroom
  refine ⟨c', ?_, hshape, hoctets⟩
  obtain ⟨x, hv, -, -, hrest, hwalk⟩ := walk_eq c (show ofs < c.octets.length from hroom)
  obtain ⟨d, ds, hd⟩ : ∃ d ds, x.rest = d :: ds := ⟨_, _, hv.rest_eq⟩
  obtain ⟨x', hput, hv', hr', -, -⟩ := put_spec hv hd (prefixOctet a b)
  rw [hwalk] at hwrite
  have hput' : (writeAll [prefixOctet a b] x).2.chain = c'.pbufs := congrArg Prod.snd hwrite
  rw [show writeAll [prefixOctet a b] x = _ from hput] at hput'
  rw [hwalk, encOid_pair, bind_ok hput, walk_bind_unit, ← hput']
  exact step_chain x'

/-- An identifier is written, if it does not have a single element. -/
theorem writes_oid {ident : List ℤ} (h : ident.length ≠ 1) :
    Writes (encOid ident) (oidOctets ident) := by
  match ident with
  | [] => exact writes_nil fun _ => rfl
  | [_] => exact absurd rfl h
  | [a, b] => exact writes_pair a b
  | a :: b :: i :: ident =>
    rw [encOid_eq a b (List.cons_ne_nil i ident)]
    exact writes_writeAll (List.cons_ne_nil _ _)

/-! ## Sequences of fields -/

/-- The fields write as many octets as they count, and together they write the octets. -/
inductive Emits : List Field → List UInt8 → Prop
  | nil : Emits [] []
  | cons {f : Field} {fs : List Field} {bs bs' : List UInt8} (writes : Writes f.enc bs)
    (counted : f.cnt = bs.length)
      (rest : Emits fs bs') : Emits (f :: fs) (bs ++ bs')

/-- The octets that fields count. -/
def total (fs : List Field) : ℕ := (fs.map Field.cnt).sum

section Emits

variable {fs fs' : List Field} {bs bs' : List UInt8}

/-- One field. -/
theorem Emits.singleton {m : Walk Unit} (h : Writes m bs) : Emits [⟨m, bs.length⟩] bs := by
  have hone := Emits.cons (f := ⟨m, bs.length⟩) h rfl Emits.nil
  rwa [List.append_nil] at hone

/-- Fields one after the other. -/
theorem Emits.append (h : Emits fs bs) (h' : Emits fs' bs') : Emits (fs ++ fs') (bs ++ bs') := by
  induction h with
  | nil => exact h'
  | cons writes counted _ ih =>
    rw [List.append_assoc]
    exact Emits.cons writes counted ih

/-- The fields of the elements of a list. -/
theorem Emits.flatMap {α : Type} {f : α → List Field} {g : α → List UInt8} {l : List α}
    (h : ∀ a ∈ l, Emits (f a) (g a)) : Emits (l.flatMap f) (l.flatMap g) := by
  induction l with
  | nil => exact Emits.nil
  | cons a l ih =>
    exact (h a List.mem_cons_self).append (ih fun b hb => h b (List.mem_cons_of_mem a hb))

/-- The count of the fields is the length of the octets. -/
theorem Emits.total (h : Emits fs bs) : total fs = bs.length := by
  induction h with
  | nil => rfl
  | cons _ counted _ ih =>
    rw [List.length_append, ← ih, ← counted]
    rfl

/-- Every field is as long as it is counted. -/
theorem Emits.counted (h : Emits fs bs) : ∀ f ∈ fs, ∃ bs, Writes f.enc bs ∧ f.cnt = bs.length := by
  induction h with
  | nil => exact fun f hf => absurd hf List.not_mem_nil
  | cons writes counted _ ih =>
    intro f hf
    rcases List.mem_cons.mp hf with rfl | hf
    · exact ⟨_, writes, counted⟩
    · exact ih f hf

/-- Fields that are written one after the other write their octets. -/
theorem encFields_spec (h : Emits fs bs) (c : Chain) {ofs : ℕ}
    (hroom : ofs + bs.length ≤ c.octets.length) :
    ∃ c' : Chain, encFields fs c.pbufs ofs = (c'.pbufs, ofs + bs.length) ∧
      c'.pbufs.map List.length = c.pbufs.map List.length ∧
      c'.octets = c.octets.take ofs ++ bs ++ c.octets.drop (ofs + bs.length) := by
  induction h generalizing c ofs with
  | nil => exact ⟨c, rfl, rfl, by simp⟩
  | @cons f fs bs bs' writes counted _ ih =>
    rw [List.length_append] at hroom
    have hfits := c.tot_len
    obtain ⟨c₁, hwalk, hshape₁, hoct₁⟩ := writes c ofs (by omega)
    have hlen₁ : c₁.octets.length = c.octets.length := by
      unfold Chain.octets
      rw [List.length_flatten, List.length_flatten, hshape₁]
    have hu16 : u16 (ofs + bs.length) = ofs + bs.length := Nat.mod_eq_of_lt
      (by unfold Chain.octets at hroom; omega)
    have hroom₁ : ofs + bs.length + bs'.length ≤ c₁.octets.length := by omega
    obtain ⟨c', henc, hshape, hoct⟩ := ih c₁ hroom₁
    refine ⟨c', ?_, hshape.trans hshape₁, ?_⟩
    · unfold encFields
      rw [hwalk, counted, hu16, henc, List.length_append, Nat.add_assoc]
    · have htake : (c.octets.take ofs ++ bs).length = ofs + bs.length := by
        rw [List.length_append, List.length_take_of_le (by omega)]
      rw [hoct, hoct₁, List.take_left' htake, ← List.drop_drop, List.drop_left' htake,
        List.drop_drop,
        List.length_append, Nat.add_assoc, ← List.append_assoc (c.octets.take ofs) bs bs']

end Emits

end Lwip.Snmp
