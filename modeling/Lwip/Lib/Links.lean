import Mathlib.Algebra.BigOperators.Group.Finset.Basic
import Mathlib.Algebra.Order.BigOperators.Group.Finset
import Mathlib.Data.List.Perm.Subperm

/-!
# Cells that link to at most one cell

`succ j` is the cell that the cell `j` links to, if any. `linksTo n succ i` counts the cells below
`n` that link to `i`, and changes with one link by the balance of `linksTo_update`. `Walk succ r l`
says that the links lead from `r` through the cells of `l` to an end; there is one such list
(`Walk.unique`), it does not come back to a cell (`Walk.nodup`), and it depends on the links of its
own cells only (`Walk.congr`).

`Chains succ` says that no two cells link to one cell and that every walk comes to an end: the cells
are apart in lists. This stays so when links are taken back, and when the end of one list is linked
to the head of another one.
-/

namespace Lwip

/-- 1 if the link leads to `i`, else 0. -/
def hit (r : Option ℕ) (i : ℕ) : ℕ := if r = some i then 1 else 0

/-- A null pointer points to no cell. -/
@[simp] theorem hit_none (i : ℕ) : hit none i = 0 := rfl

/-- A pointer to a cell counts for it. -/
@[simp] theorem hit_self (i : ℕ) : hit (some i) i = 1 := if_pos rfl

/-- A pointer does not count for another cell. -/
theorem hit_of_ne {i j : ℕ} (h : i ≠ j) : hit (some j) i = 0 :=
  if_neg fun heq => h (Option.some.inj heq).symm

/-- A pointer counts for the cell that it points to only. -/
theorem hit_pos_iff {r : Option ℕ} {i : ℕ} : 0 < hit r i ↔ r = some i := by
  unfold hit
  split
  · next h => exact iff_of_true Nat.one_pos h
  · next h => exact iff_of_false (Nat.lt_irrefl 0) h

/-- The number of cells below `n` that link to `i`. -/
def linksTo (n : ℕ) (succ : ℕ → Option ℕ) (i : ℕ) : ℕ := ∑ j ∈ Finset.range n, hit (succ j) i

section Count

variable {n i j : ℕ} {succ succ' : ℕ → Option ℕ} {r : Option ℕ}

/-- The count depends on the pointers of the cells that are counted only. -/
theorem linksTo_congr (h : ∀ j < n, succ' j = succ j) (i : ℕ) :
    linksTo n succ' i = linksTo n succ i :=
  Finset.sum_congr rfl fun j hj => by rw [h j (Finset.mem_range.mp hj)]

/-- A cell more. -/
theorem linksTo_succ (n : ℕ) (succ : ℕ → Option ℕ) (i : ℕ) :
    linksTo (n + 1) succ i = linksTo n succ i + hit (succ n) i :=
  Finset.sum_range_succ _ _

/-- The balance of a change of one link. -/
theorem linksTo_update (hj : j < n) (i : ℕ) :
    linksTo n (Function.update succ j r) i + hit (succ j) i = linksTo n succ i + hit r i := by
  have hmem : j ∈ Finset.range n := Finset.mem_range.mpr hj
  have hrest : ∑ k ∈ (Finset.range n).erase j, hit (Function.update succ j r k) i =
      ∑ k ∈ (Finset.range n).erase j, hit (succ k) i := by
    refine Finset.sum_congr rfl fun k hk => ?_
    rw [Function.update_of_ne (Finset.ne_of_mem_erase hk)]
  unfold linksTo
  rw [← Finset.add_sum_erase _ _ hmem, ← Finset.add_sum_erase (Finset.range n) _ hmem,
    Function.update_self, hrest]
  omega

/-- A cell is counted when some pointer leads to it. -/
theorem linksTo_pos_iff : 0 < linksTo n succ i ↔ ∃ j < n, succ j = some i := by
  unfold linksTo
  rw [Finset.sum_pos_iff]
  constructor
  · rintro ⟨j, hj, hpos⟩
    exact ⟨j, Finset.mem_range.mp hj, hit_pos_iff.mp hpos⟩
  · rintro ⟨j, hj, hlink⟩
    exact ⟨j, Finset.mem_range.mpr hj, hit_pos_iff.mpr hlink⟩

end Count

/-- The links lead from `r` through the cells of the list, and end there. -/
inductive Walk (succ : ℕ → Option ℕ) : Option ℕ → List ℕ → Prop where
  | nil : Walk succ none []
  | cons {p : ℕ} {l : List ℕ} : Walk succ (succ p) l → Walk succ (some p) (p :: l)

namespace Walk

variable {succ succ' : ℕ → Option ℕ} {r : Option ℕ} {p x : ℕ} {l l' : List ℕ}

/-- A walk is determined by where it starts. -/
theorem unique (h : Walk succ r l) (h' : Walk succ r l') : l = l' := by
  induction h generalizing l' with
  | nil => cases h'; rfl
  | cons _ ih =>
    cases h' with
    | cons h' => rw [ih h']

/-- A walk depends on the links of its own cells only. -/
theorem congr (h : Walk succ r l) (hs : ∀ x ∈ l, succ' x = succ x) : Walk succ' r l := by
  induction h with
  | nil => exact .nil
  | @cons p l _ ih =>
    apply Walk.cons
    rw [hs p List.mem_cons_self]
    exact ih fun x hx => hs x (List.mem_cons_of_mem p hx)

/-- From a cell of the walk on, the walk is not longer. -/
theorem from_mem (h : Walk succ r l) (hx : x ∈ l) :
    ∃ l', Walk succ (some x) l' ∧ l'.length ≤ l.length := by
  induction h with
  | nil => cases hx
  | @cons p l hw ih =>
    rcases List.mem_cons.mp hx with rfl | hx
    · exact ⟨_, .cons hw, Nat.le_refl _⟩
    · obtain ⟨l', hl', hlen⟩ := ih hx
      exact ⟨l', hl', Nat.le_succ_of_le hlen⟩

/-- A walk that comes to an end does not come back to its first cell. -/
theorem head_not_mem (h : Walk succ (some p) (p :: l)) : p ∉ l := by
  intro hp
  cases h with
  | cons hw =>
    -- The walk from there on would be this walk again, and shorter.
    obtain ⟨l', hl', hlen⟩ := hw.from_mem hp
    have heq : l' = p :: l := hl'.unique (.cons hw)
    rw [heq, List.length_cons] at hlen
    omega

/-- A walk that comes to an end passes no cell twice. -/
theorem nodup (h : Walk succ r l) : l.Nodup := by
  induction h with
  | nil => exact List.nodup_nil
  | cons hw ih => exact List.nodup_cons.mpr ⟨(Walk.cons hw).head_not_mem, ih⟩

/-- A cell of the walk is the first one, or another cell of the walk links to it. -/
theorem pred (h : Walk succ r l) (hx : x ∈ l) : r = some x ∨ ∃ y ∈ l, succ y = some x := by
  induction h with
  | nil => cases hx
  | @cons p l hw ih =>
    rcases List.mem_cons.mp hx with rfl | hx
    · exact .inl rfl
    · rcases ih hx with hp | ⟨y, hy, hlink⟩
      · exact .inr ⟨p, List.mem_cons_self, hp⟩
      · exact .inr ⟨y, List.mem_cons_of_mem p hy, hlink⟩

/-- The walk begins with its first cell. -/
theorem head?_eq (h : Walk succ r l) : l.head? = r := by
  cases h <;> rfl

/-- What is so at the beginning of a walk and is handed on by the links is so at all its cells. -/
theorem forall_mem {P : ℕ → Prop} (h : Walk succ r l) (hr : ∀ x, r = some x → P x)
    (hs : ∀ x y, P x → succ x = some y → P y) : ∀ x ∈ l, P x := by
  induction h with
  | nil => exact fun x hx => by cases hx
  | @cons p l hw ih =>
    intro x hx
    have hp : P p := hr p rfl
    rcases List.mem_cons.mp hx with rfl | hx
    · exact hp
    · exact ih (fun y hy => hs p y hp hy) x hx

/-- A walk that is cut behind one of its cells. -/
theorem cut (h : Walk succ r (l ++ p :: l')) (hl : ∀ x ∈ l, succ' x = succ x)
    (hp : succ' p = none) : Walk succ' r (l ++ [p]) := by
  induction l generalizing r with
  | nil =>
    cases h
    exact .cons (by rw [hp]; exact .nil)
  | cons q l ih =>
    cases h with
    | cons h =>
      apply Walk.cons
      rw [hl q List.mem_cons_self]
      exact ih h fun x hx => hl x (List.mem_cons_of_mem q hx)

/-- A walk that goes on to a new last cell. -/
theorem snoc {q : ℕ} (h : Walk succ r (l ++ [q])) (hl : ∀ x ∈ l, succ' x = succ x)
    (hq : succ' q = some p) (hp : succ' p = none) : Walk succ' r (l ++ [q] ++ [p]) := by
  induction l generalizing r with
  | nil =>
    cases h
    refine .cons ?_
    rw [hq]
    refine .cons ?_
    rw [hp]
    exact .nil
  | cons x l ih =>
    cases h with
    | cons h =>
      apply Walk.cons
      rw [hl x List.mem_cons_self]
      exact ih h fun y hy => hl y (List.mem_cons_of_mem x hy)

/-- The rest of a walk behind one of its cells. -/
theorem drop (h : Walk succ r (l ++ p :: l')) : Walk succ (succ p) l' := by
  induction l generalizing r with
  | nil =>
    cases h with
    | cons h => exact h
  | cons q l ih =>
    cases h with
    | cons h => exact ih h

/-- A cell of a walk that is passed over by the link of the cell before it. -/
theorem unlink {q : ℕ} (h : Walk succ r (l ++ q :: p :: l')) :
    Walk (Function.update succ q (succ p)) r (l ++ q :: l') := by
  have hnodup : (l ++ q :: p :: l').Nodup := h.nodup
  have hne : ∀ x ∈ l', x ≠ q := by
    rintro x hx rfl
    have := (List.nodup_append.mp hnodup).2.1
    exact (List.nodup_cons.mp this).1 (List.mem_cons_of_mem p hx)
  induction l generalizing r with
  | nil =>
    cases h with
    | cons h =>
      apply Walk.cons
      rw [Function.update_self]
      -- Behind the two cells the walk goes on as before.
      have hrest : Walk succ (succ p) l' := Walk.drop (l := []) h
      exact hrest.congr fun x hx => Function.update_of_ne (hne x hx) _ _
  | cons y l ih =>
    have hy : y ≠ q := by
      rintro rfl
      exact (List.nodup_cons.mp hnodup).1 (List.mem_append_right l List.mem_cons_self)
    cases h with
    | cons h =>
      apply Walk.cons
      rw [Function.update_of_ne hy]
      exact ih h (List.nodup_cons.mp hnodup).2

/-- Behind a cell of a walk comes the cell that it links to. -/
theorem link_split {q : ℕ} (h : Walk succ r l) (hq : q ∈ l) (hlink : succ q = some p) :
    ∃ k k', l = k ++ q :: p :: k' := by
  obtain ⟨k, k', rfl⟩ := List.append_of_mem hq
  have hrest : Walk succ (some p) k' := hlink ▸ h.drop
  cases hrest with
  | cons _ => exact ⟨k, _, rfl⟩

/-- A walk through cells below `n` has at most `n` cells. -/
theorem length_le {n : ℕ} (h : Walk succ r l) (hn : ∀ x ∈ l, x < n) : l.length ≤ n := by
  have hsub : l ⊆ List.range n := fun x hx => List.mem_range.mpr (hn x hx)
  calc l.length ≤ (List.range n).length := (h.nodup.subperm hsub).length_le
    _ = n := List.length_range

end Walk

/-- The walk from `r`, if it has at most `n` cells. -/
def walk (succ : ℕ → Option ℕ) : ℕ → Option ℕ → Option (List ℕ)
  | _, none => some []
  | 0, some _ => none
  | n + 1, some p => (walk succ n (succ p)).map (p :: ·)

/-- The walk with a bound finds the lists that are not longer than the bound. -/
theorem walk_eq_some {succ : ℕ → Option ℕ} {n : ℕ} {r : Option ℕ} {l : List ℕ} :
    walk succ n r = some l ↔ Walk succ r l ∧ l.length ≤ n := by
  induction n generalizing r l with
  | zero =>
    cases r with
    | none =>
      constructor
      · rintro ⟨⟩
        exact ⟨.nil, Nat.le_refl 0⟩
      · rintro ⟨⟨⟩, -⟩
        rfl
    | some p =>
      refine iff_of_false (fun h => by cases h) ?_
      rintro ⟨⟨-⟩, hlen⟩
      exact absurd hlen (Nat.not_succ_le_zero _)
  | succ n ih =>
    cases r with
    | none =>
      constructor
      · rintro ⟨⟩
        exact ⟨.nil, Nat.zero_le _⟩
      · rintro ⟨⟨⟩, -⟩
        rfl
    | some p =>
      unfold walk
      rw [Option.map_eq_some_iff]
      constructor
      · rintro ⟨l', hl', rfl⟩
        obtain ⟨hw, hlen⟩ := ih.mp hl'
        exact ⟨.cons hw, Nat.succ_le_succ hlen⟩
      · rintro ⟨hw, hlen⟩
        cases hw with
        | cons hw => exact ⟨_, ih.mpr ⟨hw, Nat.le_of_succ_le_succ hlen⟩, rfl⟩

/-- No two cells link to one cell, and every walk comes to an end. -/
structure Chains (succ : ℕ → Option ℕ) : Prop where
  apart : ∀ i j k, succ i = some k → succ j = some k → i = j
  ends : ∀ i, ∃ l, Walk succ (some i) l

namespace Chains

variable {succ succ' : ℕ → Option ℕ} {h t q x : ℕ} {l lt : List ℕ}

/-- No cell links to itself. -/
theorem succ_ne (hc : Chains succ) (i : ℕ) : succ i ≠ some i := by
  intro hi
  obtain ⟨l, hl⟩ := hc.ends i
  cases hl with
  | @cons _ l hw =>
    have hw' : Walk succ (some i) l := by rwa [← hi]
    have heq : l = i :: l := hw'.unique (.cons hw)
    exact absurd (congrArg List.length heq) (Nat.ne_of_lt (Nat.lt_succ_self _))

/-- Links are taken back. -/
theorem sub (hc : Chains succ) (hs : ∀ i, succ' i = succ i ∨ succ' i = none) : Chains succ' := by
  have hlink : ∀ {i j}, succ' i = some j → succ i = some j := by
    intro i j hi
    rcases hs i with h | h
    · rwa [← h]
    · rw [h] at hi
      cases hi
  have hwalk : ∀ {r l}, Walk succ r l → ∃ l', Walk succ' r l' := by
    intro r l hw
    induction hw with
    | nil => exact ⟨[], .nil⟩
    | @cons p l _ ih =>
      rcases hs p with h | h
      · obtain ⟨l', hl'⟩ := ih
        exact ⟨p :: l', .cons (by rwa [h])⟩
      · exact ⟨[p], .cons (by rw [h]; exact .nil)⟩
  constructor
  · exact fun i j k hi hj => hc.apart i j k (hlink hi) (hlink hj)
  · intro i
    obtain ⟨l, hl⟩ := hc.ends i
    exact hwalk hl

/-- A cell that no cell links to is in no walk from another cell. -/
theorem head_not_mem (hh : ∀ i, succ i ≠ some h) (hne : h ≠ t) (hw : Walk succ (some t) lt) :
    h ∉ lt := by
  intro hmem
  rcases hw.pred hmem with heq | ⟨y, -, hy⟩
  · exact hne (Option.some.inj heq).symm
  · exact hh y hy

/-- Two lists with different heads have no cell in common. -/
theorem disjoint (hc : Chains succ) (hh : ∀ i, succ i ≠ some h) (ht : ∀ i, succ i ≠ some t)
    (hne : h ≠ t) (hw : Walk succ (some h) l) (hwt : Walk succ (some t) lt) : ∀ x ∈ l, x ∉ lt := by
  refine hw.forall_mem ?_ ?_
  · rintro x ⟨⟩
    exact head_not_mem hh hne hwt
  · intro x y hx hxy hy
    -- The only cell that links to `y` is `x`, which is not in the other list.
    rcases hwt.pred hy with heq | ⟨z, hz, hzy⟩
    · obtain rfl := Option.some.inj heq
      exact ht x hxy
    · obtain rfl := hc.apart z x y hzy hxy
      exact hx hz

/-- The end of one list is linked to the head of another one. -/
theorem link (hc : Chains succ) (ht : ∀ i, succ i ≠ some t)
    (hwt : Walk succ (some t) lt) (hqt : q ∉ lt) : Chains (Function.update succ q (some t)) := by
  have hother : ∀ {i}, i ≠ q → Function.update succ q (some t) i = succ i :=
    fun hi => Function.update_of_ne hi ..
  have hself : Function.update succ q (some t) q = some t := Function.update_self ..
  have hwt' : Walk (Function.update succ q (some t)) (some t) lt :=
    hwt.congr fun x hx => hother fun hxq => hqt (hxq ▸ hx)
  have hwalk : ∀ {r l}, Walk succ r l → ∃ l', Walk (Function.update succ q (some t)) r l' := by
    intro r l hw
    induction hw with
    | nil => exact ⟨[], .nil⟩
    | @cons p l _ ih =>
      by_cases hp : p = q
      · exact ⟨p :: lt, .cons (by rwa [hp, hself])⟩
      · obtain ⟨l', hl'⟩ := ih
        exact ⟨p :: l', .cons (by rwa [hother hp])⟩
  constructor
  · intro i j k hi hj
    by_cases hiq : i = q
    · rw [hiq, hself] at hi
      by_cases hjq : j = q
      · exact hiq.trans hjq.symm
      · rw [hother hjq] at hj
        exact absurd (hi ▸ hj) (ht j)
    · rw [hother hiq] at hi
      by_cases hjq : j = q
      · rw [hjq, hself] at hj
        exact absurd (hj ▸ hi) (ht i)
      · rw [hother hjq] at hj
        exact hc.apart i j k hi hj
  · intro i
    obtain ⟨l, hl⟩ := hc.ends i
    exact hwalk hl

end Chains

end Lwip
