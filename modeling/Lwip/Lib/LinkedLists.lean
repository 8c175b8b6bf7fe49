import Lwip.Lib.Links
import Mathlib.Logic.Function.Basic

/-!
# Several linked lists over one field of links

Cells with one field of links, and a head for each of several lists (`Lists`). `l.Are ls` says that
the list `i` runs through the cells `ls i` and ends there, and that no cell is on two lists. The
four changes of the lists keep this: a cell that is on no list is put in front of one (`push`), a
cell is unlinked from the list that it is on (`unlink`, by the search for the cell before it, and
`unlinkBehind`, where that one is known), and a cell is moved to the front of its list (`toFront`).
What `unlink` does to a cell that is on no list is to take back its link.

The searches go through the first `n` cells of a list (`cells`), which are all if there are `n` in
memory.
-/

namespace Lwip

open Function (update)

/-- The cells of a list from `r` on, the first `n` of them if it has more. -/
def cells (succ : ℕ → Option ℕ) : ℕ → Option ℕ → List ℕ
  | _, none => []
  | 0, some _ => []
  | n + 1, some p => p :: cells succ n (succ p)

/-- The cells of a list are those that a walk along it comes to. -/
theorem Walk.cells_eq {succ : ℕ → Option ℕ} {r : Option ℕ} {l : List ℕ} {n : ℕ} (h : Walk succ r l)
    (hn : l.length ≤ n) : cells succ n r = l := by
  induction h generalizing n with
  | nil => cases n <;> rfl
  | @cons p l _ ih =>
    cases n with
    | zero => cases hn
    | succ n => rw [cells, ih (Nat.le_of_succ_le_succ hn)]

/-- A walk does not depend on the link of a cell that it does not come to. -/
theorem Walk.update {succ : ℕ → Option ℕ} {r : Option ℕ} {l : List ℕ} {p : ℕ} (h : Walk succ r l)
    (hp : p ∉ l) (r' : Option ℕ) : Walk (Function.update succ p r') r l := by
  refine h.congr fun x hx => Function.update_of_ne ?_ _ _
  rintro rfl
  exact hp hx

/-- One cell of a walk links to the cell that another one links to: they are the same. -/
theorem Walk.pred_unique {succ : ℕ → Option ℕ} {r : Option ℕ} {l : List ℕ} {p q x : ℕ}
    (h : Walk succ r l) (hx : x ∈ l) (hq : q ∈ l) (hxp : succ x = some p) (hqp : succ q = some p) :
    x = q := by
  obtain ⟨a, a', rfl⟩ := List.append_of_mem hx
  obtain ⟨b, b', hb⟩ := List.append_of_mem hq
  -- Behind both comes the walk from `p`, so that they stand at the same place.
  have hwx : Walk succ (some p) a' := hxp ▸ h.drop
  have hwq : Walk succ (some p) b' := hqp ▸ (hb ▸ h).drop
  obtain rfl := hwx.unique hwq
  have hlen : a.length = b.length := by
    have := congrArg List.length hb
    simp only [List.length_append, List.length_cons] at this
    omega
  exact (List.cons.inj (List.append_inj hb hlen).2).1

/-- The links of the cells, and the heads of the lists. -/
structure Lists (ι : Type) where
  succ : ℕ → Option ℕ
  heads : ι → Option ℕ

namespace Lists

variable {ι : Type}

/-- The lists run through these cells, and no cell is on two lists. -/
structure Are (l : Lists ι) (ls : ι → List ℕ) : Prop where
  walk : ∀ i, Walk l.succ (l.heads i) (ls i)
  apart : ∀ i j p, p ∈ ls i → p ∈ ls j → i = j

section

variable {l : Lists ι} {ls : ι → List ℕ} {p x : ℕ} {i j : ι}

/-- A cell of another list is none of this one. -/
theorem Are.ne_of_mem (h : l.Are ls) (hj : j ≠ i) (hx : x ∈ ls j) (hp : p ∈ ls i) : x ≠ p := by
  rintro rfl
  exact hj (h.apart j i x hx hp)

/-- The link of a cell that is on no list does not matter. -/
theorem Are.loose (h : l.Are ls) (hp : ∀ j, p ∉ ls j) (r : Option ℕ) :
    ({ l with succ := update l.succ p r } : Lists ι).Are ls :=
  ⟨fun i => (h.walk i).update (hp i) r, h.apart⟩

end

variable [DecidableEq ι]

/-- The cell `p` is put in front of the list `i`. -/
def push (l : Lists ι) (i : ι) (p : ℕ) : Lists ι where
  succ := update l.succ p (l.heads i)
  heads := update l.heads i (some p)

/-- The cell `p` is unlinked from the list `i`, if it is on it, and its own link is taken back in
any case. -/
def unlink (l : Lists ι) (n : ℕ) (i : ι) (p : ℕ) : Lists ι :=
  if l.heads i = some p then
    { succ := update l.succ p none, heads := update l.heads i (l.succ p) }
  else
    match (cells l.succ n (l.heads i)).find? fun q => l.succ q = some p with
    | some q => { l with succ := update (update l.succ q (l.succ p)) p none }
    | none => { l with succ := update l.succ p none }

/-- The cell `p` is passed over by the link of the cell before it, if there is one, or by the head
of the list. -/
def unlinkBehind (l : Lists ι) (i : ι) (prev : Option ℕ) (p : ℕ) : Lists ι :=
  match prev with
  | some q => { l with succ := update l.succ q (l.succ p) }
  | none => { l with heads := update l.heads i (l.succ p) }

/-- Only the pointer of the predecessor changes. -/
theorem unlinkBehind_succ {l : Lists ι} {i : ι} {prev : Option ℕ} {p : ℕ} (hp : prev ≠ some p) :
    (l.unlinkBehind i prev p).succ p = l.succ p := by
  cases prev with
  | none => rfl
  | some q =>
    refine Function.update_of_ne ?_ _ _
    rintro rfl
    exact hp rfl

/-- The cell `p` is moved to the front of its list, if there is a cell before it. -/
def toFront (l : Lists ι) (i : ι) (prev : Option ℕ) (p : ℕ) : Lists ι :=
  match prev with
  | some q =>
    { succ := update (update l.succ q (l.succ p)) p (l.heads i),
      heads := update l.heads i (some p) }
  | none => l

section Changes

variable {l : Lists ι} {ls : ι → List ℕ} {n p q : ℕ} {i : ι} {r : Option ℕ} {k k' : List ℕ}

/-- The other lists are as before, so that one list is left to look at. -/
theorem Are.change (h : l.Are ls) {l' : Lists ι} (hw : Walk l'.succ (l'.heads i) k)
    (hk : ∀ j, j ≠ i → ∀ x ∈ ls j, x ∉ k) (hheads : ∀ j, j ≠ i → l'.heads j = l.heads j)
    (hsucc : ∀ j, j ≠ i → ∀ x ∈ ls j, l'.succ x = l.succ x) : l'.Are (update ls i k) := by
  refine ⟨fun j => ?_, fun j j' x hj hj' => ?_⟩
  · by_cases hji : j = i
    · subst hji
      rwa [Function.update_self]
    · rw [Function.update_of_ne hji, hheads j hji]
      exact (h.walk j).congr (hsucc j hji)
  · by_cases hji : j = i
    · by_cases hji' : j' = i
      · rw [hji, hji']
      · subst hji
        rw [Function.update_self] at hj
        rw [Function.update_of_ne hji'] at hj'
        exact absurd hj (hk j' hji' x hj')
    · rw [Function.update_of_ne hji] at hj
      by_cases hji' : j' = i
      · subst hji'
        rw [Function.update_self] at hj'
        exact absurd hj' (hk j hji x hj)
      · rw [Function.update_of_ne hji'] at hj'
        exact h.apart j j' x hj hj'

/-- A cell that is on no list can be put in front of one. -/
theorem Are.push (h : l.Are ls) (hp : ∀ j, p ∉ ls j) (i : ι) :
    (l.push i p).Are (update ls i (p :: ls i)) := by
  refine h.change (i := i) ?_ ?_ ?_ ?_
  · show Walk _ (update l.heads i (some p) i) _
    rw [Function.update_self]
    apply Walk.cons
    show Walk _ (update l.succ p (l.heads i) p) _
    rw [Function.update_self]
    exact (h.walk i).update (hp i) _
  · intro j hj x hx hmem
    rcases List.mem_cons.mp hmem with rfl | hmem
    · exact hp j hx
    · exact hj (h.apart j i x hx hmem)
  · exact fun j hj => Function.update_of_ne hj _ _
  · intro j _ x hx
    refine Function.update_of_ne ?_ _ _
    rintro rfl
    exact hp j hx

/-- The head of the list passes over the first cell. -/
theorem Are.dropHead (h : l.Are ls) (hi : ls i = p :: k) :
    ({ l with heads := update l.heads i (l.succ p) } : Lists ι).Are (update ls i k) := by
  have hw : Walk l.succ (l.heads i) (p :: k) := hi ▸ h.walk i
  refine h.change (i := i) ?_ ?_ ?_ ?_
  · show Walk _ (update l.heads i (l.succ p) i) _
    rw [Function.update_self]
    exact Walk.drop (l := []) hw
  · intro j hj x hx hmem
    refine h.ne_of_mem hj hx ?_ rfl
    rw [hi]
    exact List.mem_cons_of_mem p hmem
  · exact fun j hj => Function.update_of_ne hj _ _
  · exact fun _ _ _ _ => rfl

/-- The link of the cell before it passes over a cell. -/
theorem Are.passOver (h : l.Are ls) (hi : ls i = k ++ q :: p :: k') :
    ({ l with succ := update l.succ q (l.succ p) } : Lists ι).Are (update ls i (k ++ q :: k')) := by
  have hw : Walk l.succ (l.heads i) (k ++ q :: p :: k') := hi ▸ h.walk i
  have hq : q ∈ ls i := by
    rw [hi]
    exact List.mem_append_right k List.mem_cons_self
  refine h.change (i := i) hw.unlink ?_ (fun _ _ => rfl) ?_
  · intro j hj x hx hmem
    refine h.ne_of_mem hj hx (p := x) ?_ rfl
    rw [hi]
    have hsub : (k ++ q :: k').Sublist (k ++ q :: p :: k') := by
      refine List.Sublist.append_left ?_ k
      exact (List.sublist_cons_self p k').cons_cons q
    exact hsub.subset hmem
  · exact fun j hj x hx => Function.update_of_ne (h.ne_of_mem hj hx hq) _ _

/-- What `unlinkBehind` does to a cell behind the cells `k`, of which `prev` is the last. -/
theorem Are.unlinkBehind (h : l.Are ls) (hi : ls i = k ++ p :: k') :
    (l.unlinkBehind i k.getLast? p).Are (update ls i (k ++ k')) := by
  rcases List.eq_nil_or_concat' k with rfl | ⟨k₁, q, rfl⟩
  · exact h.dropHead hi
  · rw [List.getLast?_concat, List.append_assoc]
    rw [List.append_assoc] at hi
    exact h.passOver hi

/-- A cell that is not on the list any more can be linked anew. -/
theorem Are.not_mem_of_erase (h : l.Are ls) (hi : ls i = k ++ p :: k') (j : ι) :
    p ∉ update ls i (k ++ k') j := by
  have hnodup : (k ++ p :: k').Nodup := hi ▸ (h.walk i).nodup
  have hp : p ∈ ls i := by
    rw [hi]
    exact List.mem_append_right k List.mem_cons_self
  by_cases hj : j = i
  · subst hj
    rw [Function.update_self]
    intro hmem
    have hne := List.nodup_middle.mp hnodup
    exact (List.nodup_cons.mp hne).1 hmem
  · rw [Function.update_of_ne hj]
    exact fun hmem => hj (h.apart j i p hmem hp)

/-- The move of a cell to the front changes the order of one list, and nothing else. -/
theorem Are.toFront (h : l.Are ls) (hi : ls i = k ++ p :: k') :
    (l.toFront i k.getLast? p).Are (update ls i (p :: (k ++ k'))) := by
  rcases List.eq_nil_or_concat' k with rfl | ⟨k₁, q, rfl⟩
  · show l.Are (update ls i (p :: k'))
    rw [show p :: k' = ls i from hi.symm, Function.update_eq_self]
    exact h
  · have hi' : ls i = k₁ ++ q :: p :: k' := by rw [hi, List.append_assoc]; rfl
    have hpass := h.passOver hi'
    have hout : ∀ j, p ∉ update ls i (k₁ ++ q :: k') j := by
      intro j
      have := h.not_mem_of_erase hi j
      rwa [List.append_assoc] at this
    have hpush := hpass.push hout i
    rw [Function.update_self, Function.update_idem] at hpush
    rw [List.getLast?_concat, List.append_assoc]
    exact hpush

/-- What `unlink` does to a cell that is on the list. -/
theorem Are.unlink (h : l.Are ls) (hi : ls i = k ++ p :: k') (hn : (ls i).length ≤ n) :
    (l.unlink n i p).Are (update ls i (k ++ k')) := by
  have hw : Walk l.succ (l.heads i) (k ++ p :: k') := hi ▸ h.walk i
  unfold Lists.unlink
  rcases List.eq_nil_or_concat' k with rfl | ⟨k₁, q, rfl⟩
  · -- The cell is the first one.
    have hhead : l.heads i = some p := by
      cases hl : l.heads i <;> rw [hl] at hw <;> cases hw
      rfl
    rw [if_pos hhead]
    exact (h.dropHead hi).loose (h.not_mem_of_erase hi) none
  · have hi' : ls i = k₁ ++ q :: p :: k' := by rw [hi, List.append_assoc]; rfl
    have hw' : Walk l.succ (l.heads i) (k₁ ++ q :: p :: k') := hi' ▸ h.walk i
    have hnodup := hw'.nodup
    have hlink : l.succ q = some p := by
      have hdrop := hw'.drop
      cases hl : l.succ q <;> rw [hl] at hdrop <;> cases hdrop
      rfl
    have hhead : l.heads i ≠ some p := by
      intro hp
      rw [hp] at hw'
      cases k₁ with
      | nil =>
        cases hw'
        exact (List.nodup_cons.mp hnodup).1 List.mem_cons_self
      | cons x k₁ =>
        cases hw'
        exact (List.nodup_cons.mp hnodup).1
          (List.mem_append_right k₁ (List.mem_cons_of_mem q List.mem_cons_self))
    have hfind : (cells l.succ n (l.heads i)).find? (fun x => l.succ x = some p) = some q := by
      rw [(h.walk i).cells_eq hn, hi']
      have hq : q ∈ k₁ ++ q :: p :: k' := List.mem_append_right k₁ List.mem_cons_self
      cases hf : (k₁ ++ q :: p :: k').find? (fun x => l.succ x = some p) with
      | none => exact absurd (decide_eq_true hlink) (List.find?_eq_none.mp hf q hq)
      | some x =>
        have hx := List.find?_some hf
        rw [decide_eq_true_eq] at hx
        rw [hw'.pred_unique (List.mem_of_find?_eq_some hf) hq hx hlink]
    rw [if_neg hhead, hfind, List.append_assoc]
    refine (h.passOver hi').loose (fun j => ?_) none
    have := h.not_mem_of_erase hi j
    rwa [List.append_assoc] at this

/-- What `unlink` does to a cell that is on no list. -/
theorem Are.unlink_loose (h : l.Are ls) (hp : ∀ j, p ∉ ls j) (hn : (ls i).length ≤ n) :
    (l.unlink n i p).Are ls := by
  have hw := h.walk i
  unfold Lists.unlink
  have hhead : l.heads i ≠ some p := by
    intro hpi
    rw [hpi] at hw
    cases hls : ls i <;> rw [hls] at hw <;> cases hw
    exact hp i (hls ▸ List.mem_cons_self)
  have hfind : (cells l.succ n (l.heads i)).find? (fun x => l.succ x = some p) = none := by
    rw [hw.cells_eq hn, List.find?_eq_none]
    intro x hx hxp
    obtain ⟨a, b, hab⟩ := List.append_of_mem hx
    have hrest := Walk.drop (hab ▸ hw)
    rw [show l.succ x = some p by simpa using hxp] at hrest
    cases hb : b with
    | nil => rw [hb] at hrest; cases hrest
    | cons y t =>
      rw [hb] at hrest
      cases hrest
      apply hp i
      rw [hab, hb]
      exact List.mem_append_right a (List.mem_cons_of_mem x List.mem_cons_self)
  rw [if_neg hhead, hfind]
  exact h.loose hp none

end Changes

end Lists

end Lwip
