import Lwip.Lib.Tiling
import Mathlib.Algebra.Group.Int.Defs
import Mathlib.Algebra.Group.Nat.Defs
import Mathlib.Logic.Relation

/-!
# An abstract sender

The send queues of a connection as ranges of a line of sequence numbers that never wraps. `TxStep`
lists what the sender does to them; two more moves, the retransmission timeout and the loss of
unsent segments, are functions of their own because they do not keep everything.

`Tx.Weak` is what every move keeps: the queues stay close to `lastack`. This holds although the two
moves can leave segments behind that are acknowledged already; the order of `unacked ++ unsent`
bounds how far behind they are. `Tx.Strong` is what the sender is meant to keep: both queues are
sorted, and together they tile the line up to `lbb`.
-/

namespace Lwip.Tcp

/-- The state of the sender: the numbers `lastack`, `snd_nxt` and `snd_lbb`, the two queues, and
`TF_INFR`. -/
structure Tx where
  lastack : ℕ
  nxt : ℕ
  lbb : ℕ
  unacked : List Range
  unsent : List Range
  infr : Bool

/-- The place of a sent segment in `unacked`: behind the last, unless that starts after it. -/
def placeSent (s : Range) (l : List Range) : List Range :=
  match l.getLast? with
  | none => [s]
  | some last => if s.start < last.start then insertByStart s l else l ++ [s]

/-- The moves of the sender. -/
inductive TxStep : Tx → Tx → Prop where
  | append {t : Tx} {new : List Range} {e : ℕ} : Tiles t.lbb new e → e ≤ t.lastack + 2^16 →
      TxStep t { t with unsent := t.unsent ++ new, lbb := e }
  | glue {t : Tx} {init : List Range} {r : Range} {k : ℕ} : t.unsent = init ++ [r] →
      r.stop = t.lbb → r.len + k ≤ 2^16 → t.lbb + k ≤ t.lastack + 2^16 →
      TxStep t { t with unsent := init ++ [{ r with len := r.len + k }], lbb := t.lbb + k }
  | send {t : Tx} {s : Range} {rest : List Range} : t.unsent = s :: rest → t.lastack ≤ s.stop →
      TxStep t { t with
        unsent := rest, unacked := placeSent s t.unacked, nxt := max t.nxt s.stop }
  | rexmit {t : Tx} {s : Range} {rest : List Range} : t.unacked = s :: rest → t.infr = false →
      TxStep t { t with unacked := rest, unsent := insertByStart s t.unsent, infr := true }
  | ack {t : Tx} {a : ℕ} : t.lastack < a → a ≤ t.nxt →
      TxStep t { t with
        lastack := a
        unacked := t.unacked.dropWhile (fun r => decide (r.stop ≤ a))
        unsent := t.unsent.dropWhile (fun r => decide (r.stop ≤ a))
        infr := false }

/-- The retransmission timeout: all of `unacked` goes in front of `unsent`. -/
def Tx.timeout (t : Tx) : Tx := { t with unsent := t.unacked ++ t.unsent, unacked := [] }

/-- The first `k` segments of `unsent` are lost. -/
def Tx.drop (t : Tx) (k : ℕ) : Tx := { t with unsent := t.unsent.drop k }

/-! ## What every move keeps -/

/-- The queues stay close to `lastack`. In the order `unacked ++ unsent`, a segment starts at most a
window after the end of any later one. -/
structure Tx.Weak (t : Tx) : Prop where
  nxt_ge : t.lastack ≤ t.nxt
  nxt_le : t.nxt ≤ t.lbb
  win : t.lbb ≤ t.lastack + 2^16
  len : ∀ r ∈ t.unacked ++ t.unsent, 0 < r.len ∧ r.len ≤ 2^16
  stop_le : ∀ r ∈ t.unacked ++ t.unsent, r.stop ≤ t.lbb
  near : ∀ r ∈ t.unacked ++ t.unsent, t.lastack ≤ r.stop + 2^17
  order : (t.unacked ++ t.unsent).Pairwise (fun g x => g.start ≤ x.stop + 2^16)
  head : t.infr = false → ∀ r ∈ t.unacked.head?, t.lastack ≤ r.stop
  done : t.lastack = t.lbb → t.unacked = [] ∧ t.unsent = []

/-- The placed segment moves in front of some of the list: of those from the first on that does not
start before it. -/
theorem placeSent_split (s : Range) (l : List Range) :
    ∃ l₁ l₂, l = l₁ ++ l₂ ∧ placeSent s l = l₁ ++ s :: l₂ ∧ ∀ y ∈ l₂.head?, s.start ≤ y.start := by
  unfold placeSent
  split
  · next h => exact ⟨[], [], by simpa using h, rfl, by simp⟩
  · split
    · refine ⟨_, _, (List.takeWhile_append_dropWhile ..).symm, rfl, fun y hy => ?_⟩
      have hn := List.head?_dropWhile_not (fun x : Range => decide (x.start < s.start)) l
      rw [hy] at hn
      simpa using hn
    · exact ⟨l, [], by simp, rfl, by simp⟩

/-- A sent segment is put among the others. -/
theorem placeSent_perm (s : Range) (l : List Range) : (placeSent s l).Perm (s :: l) := by
  obtain ⟨l₁, l₂, rfl, h, -⟩ := placeSent_split s l
  rw [h]
  exact List.perm_middle

/-- What is left of a queue after an acknowledgement of `a` starts with a segment that reaches past
`a`. -/
theorem lt_stop_of_head {l : List Range} {a : ℕ} {y : Range}
    (hy : y ∈ (l.dropWhile (fun r => decide (r.stop ≤ a))).head?) : a < y.stop := by
  have hn := List.head?_dropWhile_not (fun r : Range => decide (r.stop ≤ a)) l
  rw [hy] at hn
  simpa using hn

/-- New segments at the end of `unsent`. -/
theorem Tx.Weak.append {t : Tx} {new : List Range} {e : ℕ} (h : t.Weak) (ht : Tiles t.lbb new e)
    (he : e ≤ t.lastack + 2^16) : ({ t with unsent := t.unsent ++ new, lbb := e } : Tx).Weak := by
  have h1 := ht.le
  have h2 := h.nxt_le
  have h3 := h.nxt_ge
  have hmem : ∀ r, r ∈ t.unacked ++ (t.unsent ++ new) → r ∈ t.unacked ++ t.unsent ∨ r ∈ new := by
    intro r hr
    rw [← List.append_assoc] at hr
    exact List.mem_append.mp hr
  refine ⟨h3, h2.trans h1, he, fun r hr => ?_, fun r hr => ?_, fun r hr => ?_, ?_, h.head, ?_⟩
  · rcases hmem r hr with hr | hr
    · exact h.len r hr
    · obtain ⟨h4, h5, h6⟩ := ht.mem hr
      unfold Range.stop at h6
      exact ⟨h5, by omega⟩
  · rcases hmem r hr with hr | hr
    · exact (h.stop_le r hr).trans h1
    · exact (ht.mem hr).2.2
  · rcases hmem r hr with hr | hr
    · exact h.near r hr
    · obtain ⟨h4, h5, h6⟩ := ht.mem hr
      unfold Range.stop
      dsimp only
      omega
  · dsimp only
    rw [← List.append_assoc]
    refine List.pairwise_append.mpr ⟨h.order, ht.pairwise.imp fun {x y} hxy => ?_, ?_⟩
    · unfold Range.stop at *; omega
    · intro x hx y hy
      have h4 := h.stop_le x hx
      have h5 := (ht.mem hy).1
      unfold Range.stop at *
      omega
  · intro hd
    dsimp only at hd ⊢
    obtain ⟨h4, h5⟩ := h.done (by omega)
    cases new with
    | nil => exact ⟨h4, by simp [h5]⟩
    | cons x l =>
      have h6 := ht.2.2.le
      have h7 := ht.1
      have h8 := ht.2.1
      unfold Range.stop at h6
      omega

/-- Data, or a FIN, glued to the last segment of `unsent`. -/
theorem Tx.Weak.glue {t : Tx} {init : List Range} {r : Range} {k : ℕ} (h : t.Weak)
    (hu : t.unsent = init ++ [r]) (hs : r.stop = t.lbb) (hk : r.len + k ≤ 2^16)
    (he : t.lbb + k ≤ t.lastack + 2^16) :
    ({ t with unsent := init ++ [{ r with len := r.len + k }], lbb := t.lbb + k } : Tx).Weak := by
  have h2 := h.nxt_le
  have hmem : ∀ x, x ∈ t.unacked ++ (init ++ [{ r with len := r.len + k }]) →
      x ∈ t.unacked ++ init ∨ x = { r with len := r.len + k } := by
    intro x hx
    rw [← List.append_assoc] at hx
    rcases List.mem_append.mp hx with hx | hx
    · exact .inl hx
    · exact .inr (List.mem_singleton.mp hx)
  have hold : ∀ x, x ∈ t.unacked ++ init → x ∈ t.unacked ++ t.unsent := by
    intro x hx
    rw [hu, ← List.append_assoc]
    exact List.mem_append_left _ hx
  have hr : r ∈ t.unacked ++ t.unsent := by rw [hu]; simp
  have hrl := h.len r hr
  have hrn := h.near r hr
  have hord := h.order
  rw [hu, ← List.append_assoc] at hord
  obtain ⟨hord1, -, hord2⟩ := List.pairwise_append.mp hord
  refine ⟨h.nxt_ge, by dsimp only; omega, he, fun x hx => ?_, fun x hx => ?_, fun x hx => ?_, ?_,
    h.head, ?_⟩
  · rcases hmem x hx with hx | rfl
    · exact h.len x (hold x hx)
    · dsimp only; omega
  · rcases hmem x hx with hx | rfl
    · exact (h.stop_le x (hold x hx)).trans (Nat.le_add_right _ _)
    · unfold Range.stop at *; dsimp only; omega
  · rcases hmem x hx with hx | rfl
    · exact h.near x (hold x hx)
    · unfold Range.stop at *; dsimp only; omega
  · dsimp only
    rw [← List.append_assoc]
    refine List.pairwise_append.mpr ⟨hord1, by simp, fun x hx y hy => ?_⟩
    rw [List.mem_singleton.mp hy]
    have := hord2 x hx r (by simp)
    unfold Range.stop at *
    dsimp only
    omega
  · intro hd
    have := h.nxt_ge
    have hnil := (h.done (by dsimp only at hd; omega)).2
    rw [hu] at hnil
    simp at hnil

/-- A segment is sent. -/
theorem Tx.Weak.send {t : Tx} {s : Range} {rest : List Range} (h : t.Weak)
    (hu : t.unsent = s :: rest) (hs : t.lastack ≤ s.stop) :
    ({ t with unsent := rest, unacked := placeSent s t.unacked, nxt := max t.nxt s.stop } :
      Tx).Weak := by
  obtain ⟨l₁, l₂, hsplit, hplace, hhead⟩ := placeSent_split s t.unacked
  have hperm : (placeSent s t.unacked ++ rest).Perm (t.unacked ++ t.unsent) := by
    rw [hu]
    exact ((placeSent_perm s t.unacked).append_right rest).trans List.perm_middle.symm
  have hmem : ∀ x, x ∈ placeSent s t.unacked ++ rest → x ∈ t.unacked ++ t.unsent :=
    fun x => hperm.mem_iff.mp
  have hsm : s ∈ t.unacked ++ t.unsent := by rw [hu]; simp
  have hsl := h.stop_le s hsm
  have h1 := h.nxt_ge
  have h2 := h.nxt_le
  refine ⟨by dsimp only; omega, by dsimp only; omega, h.win, fun x hx => h.len x (hmem x hx),
    fun x hx => h.stop_le x (hmem x hx), fun x hx => h.near x (hmem x hx), ?_, ?_, ?_⟩
  · have hord := h.order
    rw [hu, hsplit] at hord
    dsimp only
    rw [hplace]
    -- `s` moves in front of `l₂`, whose first segment does not start before it.
    have hl₂ : ∀ y ∈ l₂, s.start ≤ y.stop + 2^16 := by
      intro y hy
      cases l₂ with
      | nil => cases hy
      | cons z l₂ =>
        have hz := hhead z (by simp)
        rcases List.mem_cons.mp hy with rfl | hy
        · unfold Range.stop; omega
        · have h3 := (List.pairwise_append.mp (List.pairwise_append.mp hord).1).2.1
          have h4 := (List.pairwise_cons.mp h3).1 y hy
          omega
    obtain ⟨hl, hsr, hlr⟩ := List.pairwise_append.mp hord
    obtain ⟨h3, h4, h5⟩ := List.pairwise_append.mp hl
    obtain ⟨h6, h7⟩ := List.pairwise_cons.mp hsr
    refine List.pairwise_append.mpr ⟨List.pairwise_append.mpr
      ⟨h3, List.pairwise_cons.mpr ⟨hl₂, h4⟩, fun x hx y hy => ?_⟩, h7, fun x hx y hy => ?_⟩
    · rcases List.mem_cons.mp hy with rfl | hy
      · exact hlr x (by simp [hx]) y (by simp)
      · exact h5 x hx y hy
    · rcases List.mem_append.mp hx with hx | hx
      · exact hlr x (by simp [hx]) y (by simp [hy])
      · rcases List.mem_cons.mp hx with rfl | hx
        · exact h6 y hy
        · exact hlr x (by simp [hx]) y (by simp [hy])
  · intro hi r hr
    dsimp only at hr
    rw [hplace] at hr
    cases l₁ with
    | nil =>
      simp only [List.nil_append, List.head?_cons, Option.mem_def, Option.some.injEq] at hr
      rw [← hr]
      exact hs
    | cons z l₁ =>
      refine h.head hi r ?_
      rw [hsplit]
      simpa using hr
  · intro hd
    have hnil := (h.done hd).2
    rw [hu] at hnil
    cases hnil

/-- The first segment of `unacked` goes to its place in `unsent`. -/
theorem Tx.Weak.rexmit {t : Tx} {s : Range} {rest : List Range} (h : t.Weak)
    (hu : t.unacked = s :: rest) (hi : t.infr = false) :
    ({ t with unacked := rest, unsent := insertByStart s t.unsent, infr := true } : Tx).Weak := by
  have hperm : (rest ++ insertByStart s t.unsent).Perm (t.unacked ++ t.unsent) := by
    rw [hu]
    exact ((insertByStart_perm s t.unsent).append_left rest).trans List.perm_middle
  have hmem : ∀ x, x ∈ rest ++ insertByStart s t.unsent → x ∈ t.unacked ++ t.unsent :=
    fun x => hperm.mem_iff.mp
  have hlast := h.head hi s (by rw [hu]; simp)
  refine ⟨h.nxt_ge, h.nxt_le, h.win, fun x hx => h.len x (hmem x hx),
    fun x hx => h.stop_le x (hmem x hx), fun x hx => h.near x (hmem x hx), ?_, by simp, ?_⟩
  · have hord := h.order
    have hsplit := List.takeWhile_append_dropWhile
      (p := fun x : Range => decide (x.start < s.start)) (l := t.unsent)
    have hbefore : ∀ x ∈ t.unsent.takeWhile (fun x => decide (x.start < s.start)),
        x.start < s.start := fun x hx => by simpa using List.mem_takeWhile_imp hx
    have hrest : ∀ x ∈ rest, x.start ≤ s.stop + 2^16 := by
      intro x hx
      have h3 := h.stop_le x (by rw [hu]; simp [hx])
      have h4 := h.win
      unfold Range.stop at *
      omega
    rw [hu, ← hsplit] at hord
    dsimp only
    unfold insertByStart
    simp only [List.pairwise_append, List.pairwise_cons, List.mem_append, List.mem_cons,
      List.cons_append] at hord ⊢
    obtain ⟨h3, h4, ⟨h5, h6, h7⟩, h8⟩ := hord
    refine ⟨h4, ⟨h5, ⟨fun y hy => h3 y (.inr (.inr hy)), h6⟩, ?_⟩, ?_⟩
    · rintro x hx y (rfl | hy)
      · have := hbefore x hx
        unfold Range.stop
        omega
      · exact h7 x hx y hy
    · rintro x hx y (hy | rfl | hy)
      · exact h8 x hx y (.inl hy)
      · exact hrest x hx
      · exact h8 x hx y (.inr hy)
  · intro hd
    have hnil := (h.done hd).1
    rw [hu] at hnil
    cases hnil

/-- An acknowledgement of data that were sent. -/
theorem Tx.Weak.ack {t : Tx} {a : ℕ} (h : t.Weak) (ha : t.lastack < a) (ha' : a ≤ t.nxt) :
    ({ t with
      lastack := a
      unacked := t.unacked.dropWhile (fun r => decide (r.stop ≤ a))
      unsent := t.unsent.dropWhile (fun r => decide (r.stop ≤ a))
      infr := false } : Tx).Weak := by
  set A := t.unacked.dropWhile (fun r => decide (r.stop ≤ a)) with hA
  set U := t.unsent.dropWhile (fun r => decide (r.stop ≤ a)) with hU
  have hsub : (A ++ U).Sublist (t.unacked ++ t.unsent) :=
    (List.dropWhile_sublist _).append (List.dropWhile_sublist _)
  have hord := h.order.sublist hsub
  have h1 := h.nxt_le
  have h2 := h.win
  refine ⟨ha', h1, by dsimp only; omega, fun r hr => h.len r (hsub.subset hr),
    fun r hr => h.stop_le r (hsub.subset hr), fun r hr => ?_, hord, fun _ r hr => ?_, fun hd => ?_⟩
  · -- The first segment that is left reaches past `a`, and bounds those behind it.
    have hfirst : ∀ g ∈ (A ++ U).head?, a < g.stop := by
      intro g hg
      cases hAl : A with
      | nil => rw [hAl, List.nil_append] at hg; exact lt_stop_of_head hg
      | cons x l =>
        rw [hAl, List.cons_append, List.head?_cons] at hg
        exact lt_stop_of_head (l := t.unacked) (by rw [← hA, hAl]; exact hg)
    cases hl : A ++ U with
    | nil => rw [hl] at hr; cases hr
    | cons g l =>
      have hg := hfirst g (by rw [hl]; rfl)
      have hgl := h.len g (hsub.subset (by rw [hl]; simp))
      rw [hl] at hr hord
      rcases List.mem_cons.mp hr with rfl | hr
      · dsimp only; omega
      · have hgr := (List.pairwise_cons.mp hord).1 r hr
        unfold Range.stop at *
        dsimp only
        omega
  · exact (lt_stop_of_head hr).le
  · dsimp only at hd ⊢
    have hall : ∀ r ∈ t.unacked ++ t.unsent, decide (r.stop ≤ a) = true := by
      intro r hr
      have := h.stop_le r hr
      simp only [decide_eq_true_eq]
      omega
    exact ⟨List.dropWhile_eq_nil_iff.mpr fun r hr => hall r (by simp [hr]),
      List.dropWhile_eq_nil_iff.mpr fun r hr => hall r (by simp [hr])⟩

/-- Every move keeps the queues close. -/
theorem Tx.Weak.step {t t' : Tx} (h : t.Weak) (hs : TxStep t t') : t'.Weak := by
  cases hs with
  | append ht he => exact h.append ht he
  | glue hu hr hk he => exact h.glue hu hr hk he
  | send hu hs => exact h.send hu hs
  | rexmit hu hi => exact h.rexmit hu hi
  | ack ha ha' => exact h.ack ha ha'

/-- Every sequence of moves keeps the queues close to `lastack`. -/
theorem Tx.Weak.steps {t t' : Tx} (h : t.Weak) (hs : Relation.ReflTransGen TxStep t t') :
    t'.Weak := by
  induction hs with
  | refl => exact h
  | tail _ hs ih => exact ih.step hs

/-- A timeout keeps the queues close to `lastack`. -/
theorem Tx.Weak.timeout {t : Tx} (h : t.Weak) : t.timeout.Weak := by
  refine ⟨h.nxt_ge, h.nxt_le, h.win, h.len, h.stop_le, h.near, h.order, by simp [Tx.timeout], ?_⟩
  intro hd
  obtain ⟨h1, h2⟩ := h.done hd
  simp [Tx.timeout, h1, h2]

/-- The loss of unsent segments keeps the queues close to `lastack`. -/
theorem Tx.Weak.drop {t : Tx} (h : t.Weak) (k : ℕ) : (t.drop k).Weak := by
  have hsub : (t.unacked ++ t.unsent.drop k).Sublist (t.unacked ++ t.unsent) :=
    (List.Sublist.refl _).append (List.drop_sublist k _)
  refine ⟨h.nxt_ge, h.nxt_le, h.win, fun r hr => h.len r (hsub.subset hr),
    fun r hr => h.stop_le r (hsub.subset hr), fun r hr => h.near r (hsub.subset hr),
    h.order.sublist hsub, h.head, fun hd => ?_⟩
  obtain ⟨h1, h2⟩ := h.done hd
  exact ⟨h1, by simp [Tx.drop, h2]⟩

/-! ## What the sender is meant to keep -/

/-- Both queues are sorted; merged, they tile the line from `lastack`, or from before it, up to
`lbb`; no segment in them is acknowledged, and those of `unacked` were sent. -/
structure Tx.Strong (t : Tx) : Prop where
  sorted_unacked : SortedByStart t.unacked
  sorted_unsent : SortedByStart t.unsent
  tiles : ∃ m b, m.Perm (t.unacked ++ t.unsent) ∧ b ≤ t.lastack ∧ Tiles b m t.lbb
  lt_stop : ∀ r ∈ t.unacked ++ t.unsent, t.lastack < r.stop
  stop_le_nxt : ∀ r ∈ t.unacked, r.stop ≤ t.nxt

/-- Segments that start at different places stand in both queues. -/
theorem Tx.Strong.pairwise_ne {t : Tx} (h : t.Strong) :
    (t.unacked ++ t.unsent).Pairwise (fun x y => x.start ≠ y.start) := by
  obtain ⟨m, b, hm, -, ht⟩ := h.tiles
  have hn := (hm.map Range.start).nodup_iff.mp ht.nodup_start
  exact (List.pairwise_map.mp hn)

/-- New segments behind the others keep the order. -/
theorem Tx.Strong.append {t : Tx} {new : List Range} {e : ℕ} (h : t.Strong) (hw : t.Weak)
    (ht : Tiles t.lbb new e) : ({ t with unsent := t.unsent ++ new, lbb := e } : Tx).Strong := by
  obtain ⟨m, b, hm, hb, hmt⟩ := h.tiles
  have h1 := hw.nxt_ge
  have h2 := hw.nxt_le
  refine ⟨h.sorted_unacked, ?_, ⟨m ++ new, b, ?_, hb, hmt.append ht⟩, fun r hr => ?_,
    h.stop_le_nxt⟩
  · refine List.pairwise_append.mpr ⟨h.sorted_unsent, ht.pairwise.imp_of_mem ?_, ?_⟩
    · intro x y hx _ hxy
      have := (ht.mem hx).2.1
      unfold Range.stop at hxy
      omega
    · intro x hx y hy
      have h3 := hw.stop_le x (by simp [hx])
      have h4 := (hw.len x (by simp [hx])).1
      have h5 := (ht.mem hy).1
      unfold Range.stop at h3
      omega
  · dsimp only
    rw [← List.append_assoc]
    exact hm.append_right new
  · dsimp only at hr ⊢
    rw [← List.append_assoc] at hr
    rcases List.mem_append.mp hr with hr | hr
    · exact h.lt_stop r hr
    · obtain ⟨h3, h4, -⟩ := ht.mem hr
      unfold Range.stop
      omega

/-- Data glued to the last segment keep the order. -/
theorem Tx.Strong.glue {t : Tx} {init : List Range} {r : Range} {k : ℕ} (h : t.Strong)
    (hu : t.unsent = init ++ [r]) (hs : r.stop = t.lbb) :
    ({ t with unsent := init ++ [{ r with len := r.len + k }], lbb := t.lbb + k } : Tx).Strong := by
  obtain ⟨m, b, hm, hb, hmt⟩ := h.tiles
  have hr : r ∈ t.unacked ++ t.unsent := by rw [hu]; simp
  -- The merged list ends with `r`, since `r` ends at `lbb`.
  obtain ⟨init', rfl⟩ := hmt.eq_concat_of_stop_eq (hm.mem_iff.mpr hr) hs
  have hinit : init'.Perm (t.unacked ++ init) := by
    rw [hu, ← List.append_assoc] at hm
    exact (List.perm_append_right_iff [r]).mp hm
  have hlen := (hmt.mem (r := r) (by simp)).2.1
  obtain ⟨ht, -⟩ := hmt.of_concat
  have hsorted := h.sorted_unsent
  rw [hu] at hsorted
  obtain ⟨h1, -, h2⟩ := List.pairwise_append.mp hsorted
  refine ⟨h.sorted_unacked, ?_, ⟨init' ++ [{ r with len := r.len + k }], b, ?_, hb, ?_⟩,
    fun x hx => ?_, h.stop_le_nxt⟩
  · refine List.pairwise_append.mpr ⟨h1, by simp, fun x hx y hy => ?_⟩
    rw [List.mem_singleton.mp hy]
    exact h2 x hx r (by simp)
  · dsimp only
    rw [← List.append_assoc]
    exact hinit.append_right _
  · refine ht.append ⟨rfl, by dsimp only; omega, ?_⟩
    unfold Range.stop at hs ⊢
    dsimp only
    exact by rw [← hs]; exact (Nat.add_assoc _ _ _).symm
  · dsimp only at hx ⊢
    rw [← List.append_assoc] at hx
    rcases List.mem_append.mp hx with hx | hx
    · refine h.lt_stop x ?_
      rw [hu, ← List.append_assoc]
      simp only [List.mem_append] at hx ⊢
      tauto
    · rw [List.mem_singleton.mp hx]
      have := h.lt_stop r hr
      unfold Range.stop at this ⊢
      dsimp only
      omega

/-- A segment that is sent keeps the order. -/
theorem Tx.Strong.send {t : Tx} {s : Range} {rest : List Range} (h : t.Strong)
    (hu : t.unsent = s :: rest) :
    ({ t with unsent := rest, unacked := placeSent s t.unacked, nxt := max t.nxt s.stop } :
      Tx).Strong := by
  have hperm : (placeSent s t.unacked ++ rest).Perm (t.unacked ++ t.unsent) := by
    rw [hu]
    exact ((placeSent_perm s t.unacked).append_right rest).trans List.perm_middle.symm
  obtain ⟨m, b, hm, hb, hmt⟩ := h.tiles
  have hne : ∀ x ∈ t.unacked, x.start ≠ s.start := by
    have := h.pairwise_ne
    rw [hu] at this
    exact fun x hx => (List.pairwise_append.mp this).2.2 x hx s (by simp)
  have hrest : SortedByStart rest := by
    have := h.sorted_unsent
    rw [hu] at this
    exact (List.pairwise_cons.mp this).2
  refine ⟨?_, hrest, ⟨m, b, hm.trans hperm.symm, hb, hmt⟩,
    fun r hr => h.lt_stop r (hperm.mem_iff.mp hr), fun r hr => ?_⟩
  · dsimp only
    unfold placeSent
    split
    · exact List.pairwise_singleton _ _
    · next last hlast =>
      split
      · exact h.sorted_unacked.insertByStart hne
      · -- The last segment does not start after `s`, and so none does.
        next hnlt =>
        refine List.pairwise_append.mpr ⟨h.sorted_unacked, by simp, fun x hx y hy => ?_⟩
        rw [List.mem_singleton.mp hy]
        obtain ⟨init, hinit⟩ := List.getLast?_eq_some_iff.mp hlast
        have hs := h.sorted_unacked
        rw [hinit] at hs
        have hlne := hne last (by rw [hinit]; simp)
        have hxl : x.start ≤ last.start := by
          rw [hinit] at hx
          rcases List.mem_append.mp hx with hx | hx
          · exact ((List.pairwise_append.mp hs).2.2 x hx last (by simp)).le
          · rw [List.mem_singleton.mp hx]
        omega
  · dsimp only at hr ⊢
    rcases List.mem_cons.mp ((placeSent_perm s t.unacked).mem_iff.mp hr) with rfl | hr
    · exact le_max_right _ _
    · exact (h.stop_le_nxt r hr).trans (le_max_left _ _)

/-- A segment that is sent again keeps the order. -/
theorem Tx.Strong.rexmit {t : Tx} {s : Range} {rest : List Range} (h : t.Strong)
    (hu : t.unacked = s :: rest) :
    ({ t with unacked := rest, unsent := insertByStart s t.unsent, infr := true } : Tx).Strong := by
  have hperm : (rest ++ insertByStart s t.unsent).Perm (t.unacked ++ t.unsent) := by
    rw [hu]
    exact ((insertByStart_perm s t.unsent).append_left rest).trans List.perm_middle
  obtain ⟨m, b, hm, hb, hmt⟩ := h.tiles
  have hne : ∀ x ∈ t.unsent, x.start ≠ s.start := by
    have := h.pairwise_ne
    rw [hu] at this
    exact fun x hx => ((List.pairwise_append.mp this).2.2 s (by simp) x hx).symm
  have hrest : SortedByStart rest := by
    have := h.sorted_unacked
    rw [hu] at this
    exact (List.pairwise_cons.mp this).2
  exact ⟨hrest, h.sorted_unsent.insertByStart hne, ⟨m, b, hm.trans hperm.symm, hb, hmt⟩,
    fun r hr => h.lt_stop r (hperm.mem_iff.mp hr),
    fun r hr => h.stop_le_nxt r (by rw [hu]; exact List.mem_cons_of_mem _ hr)⟩

/-- An acknowledgement keeps the order. -/
theorem Tx.Strong.ack {t : Tx} {a : ℕ} (h : t.Strong) (hw : t.Weak) (ha : t.lastack < a)
    (ha' : a ≤ t.nxt) :
    ({ t with
      lastack := a
      unacked := t.unacked.dropWhile (fun r => decide (r.stop ≤ a))
      unsent := t.unsent.dropWhile (fun r => decide (r.stop ≤ a))
      infr := false } : Tx).Strong := by
  obtain ⟨m, b, hm, hb, hmt⟩ := h.tiles
  have hlen : ∀ r ∈ t.unacked ++ t.unsent, 0 < r.len := fun r hr => (hw.len r hr).1
  have hdisj : ∀ x ∈ t.unacked ++ t.unsent, ∀ y ∈ t.unacked ++ t.unsent,
      x.start < y.start → x.stop ≤ y.start := fun x hx y hy =>
    hmt.stop_le_start (hm.mem_iff.mpr hx) (hm.mem_iff.mpr hy)
  have hA := h.sorted_unacked.dropWhile_stop_le a (fun x hx => hlen x (by simp [hx]))
    (fun x hx y hy => hdisj x (by simp [hx]) y (by simp [hy]))
  have hU := h.sorted_unsent.dropWhile_stop_le a (fun x hx => hlen x (by simp [hx]))
    (fun x hx y hy => hdisj x (by simp [hx]) y (by simp [hy]))
  have h1 := hw.nxt_le
  obtain ⟨b', hb', ht'⟩ := hmt.filter (a := a) (by omega) (by omega)
  refine ⟨h.sorted_unacked.sublist (List.dropWhile_sublist _),
    h.sorted_unsent.sublist (List.dropWhile_sublist _), ⟨_, b', ?_, hb', ht'⟩, fun r hr => ?_,
    fun r hr => h.stop_le_nxt r ((List.dropWhile_sublist _).subset hr)⟩
  · dsimp only
    rw [hA, hU, ← List.filter_append]
    exact hm.filter _
  · dsimp only at hr ⊢
    rw [hA, hU, ← List.filter_append] at hr
    simpa using (List.mem_filter.mp hr).2

/-- Every move keeps the queues in order. -/
theorem Tx.Strong.step {t t' : Tx} (h : t.Strong) (hw : t.Weak) (hs : TxStep t t') :
    t'.Strong := by
  cases hs with
  | append ht _ => exact h.append hw ht
  | glue hu hr _ _ => exact h.glue hu hr
  | send hu _ => exact h.send hu
  | rexmit hu _ => exact h.rexmit hu
  | ack ha ha' => exact h.ack hw ha ha'

/-- A timeout keeps them in order if no segment of `unsent` lies before one of `unacked`. -/
theorem Tx.Strong.timeout {t : Tx} (h : t.Strong)
    (ho : ∀ x ∈ t.unacked, ∀ y ∈ t.unsent, x.start < y.start) : t.timeout.Strong :=
  ⟨.nil, List.pairwise_append.mpr ⟨h.sorted_unacked, h.sorted_unsent, ho⟩, h.tiles, h.lt_stop,
    by simp [Tx.timeout]⟩

end Lwip.Tcp
