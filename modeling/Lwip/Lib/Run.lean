import Mathlib.Data.List.Basic
import Mathlib.Tactic.Common

/-!
# Runs of a machine that may stop

A machine is a step function `step : σ → ε → Except α σ` from a state and an event to the next
state, or to the reason why it stopped. `run` feeds it a list of events, `Along` says that each
event of a run meets a condition at the state it is taken in, and the rules below prove what holds
of every run: `run_invariant` for what a step preserves, `run_avoids` for reasons that never stop
the machine, `run_ok` for a machine that never stops, `run_isOk_iff` for the runs that get to their
end, `always_iff_along` for the runs all of whose states have a property.
-/

universe u v

namespace Lwip

/-- A computation goes on with the value of its first part. -/
theorem ok_bind {α : Type u} {β γ : Type v} (b : β) (f : β → Except α γ) :
    (Except.ok b >>= f) = f b := rfl

/-- A computation that ends in a value ended all its parts in values. -/
theorem bind_eq_ok {α : Type u} {β γ : Type v} {x : Except α β} {f : β → Except α γ} {c : γ} :
    (x >>= f) = .ok c ↔ ∃ b, x = .ok b ∧ f b = .ok c := by
  cases x with
  | error a =>
    constructor
    · intro h; cases h
    · rintro ⟨b, h, -⟩; cases h
  | ok b =>
    constructor
    · exact fun h => ⟨b, rfl, h⟩
    · rintro ⟨b', h, h'⟩; cases h; exact h'

/-- Renaming the reasons to stop does not touch the values. -/
theorem mapError_eq_ok {α β : Type u} {γ : Type v} {f : α → β} {x : Except α γ} {c : γ} :
    x.mapError f = .ok c ↔ x = .ok c := by
  cases x with
  | error a => simp [Except.mapError]
  | ok b => simp [Except.mapError]

/-- A computation that is checked to end in a value has one. -/
theorem exists_of_isOk {α : Type u} {β : Type v} {x : Except α β} (h : x.isOk = true) :
    ∃ b, x = .ok b := by
  cases x with
  | error a => cases h
  | ok b => exact ⟨b, rfl⟩

/-- A computation that is checked to end in a value with the property `p` has one. -/
theorem exists_of_any {α : Type u} {β : Type v} {x : Except α β} {p : β → Prop} [DecidablePred p]
    (h : x.toOption.any (fun b => decide (p b)) = true) : ∃ b, x = .ok b ∧ p b := by
  cases x with
  | error a => cases h
  | ok b => exact ⟨b, rfl, of_decide_eq_true h⟩

/-- The computation does not stop for one of the reasons `bad`. -/
structure Avoids {α : Type u} {β : Type v} (bad : α → Bool) (x : Except α β) : Prop where
  of_error : ∀ a, x = .error a → bad a = false

namespace Avoids

variable {α : Type u} {β γ : Type v} {bad : α → Bool}

/-- A result is no bad error. -/
theorem ok (b : β) : Avoids bad (.ok b : Except α β) := ⟨fun _ h => by cases h⟩

/-- An error that is not bad. -/
theorem error {a : α} (h : bad a = false) : Avoids bad (.error a : Except α β) :=
  ⟨fun _ h' => by cases h'; exact h⟩

/-- A computation in sequence avoids what both parts avoid. -/
theorem bind {x : Except α β} {f : β → Except α γ} (hx : Avoids bad x)
    (hf : ∀ b, x = .ok b → Avoids bad (f b)) : Avoids bad (x >>= f) := by
  cases x with
  | error a => exact .error (hx.of_error a rfl)
  | ok b => exact hf b rfl

end Avoids

/-- The computation does not stop for one of the reasons `bad`, and if it ends in a value, the value
has the property `P`. -/
structure Ends {α : Type u} {β : Type v} (bad : α → Bool) (P : β → Prop) (x : Except α β) :
    Prop where
  ok : ∀ b, x = .ok b → P b
  avoids : Avoids bad x

namespace Ends

variable {α : Type u} {β γ : Type v} {bad : α → Bool} {P P' : β → Prop} {Q : γ → Prop}

/-- A result with the property. -/
theorem of_ok {b : β} (h : P b) : Ends bad P (.ok b : Except α β) :=
  ⟨fun _ hb => by cases hb; exact h, .ok b⟩

/-- An error that is not bad needs no result. -/
theorem of_error {a : α} (h : bad a = false) : Ends bad P (.error a : Except α β) :=
  ⟨fun _ hb => (by cases hb), .error h⟩

/-- The property of the result can be weakened. -/
theorem mono {x : Except α β} (h : Ends bad P x) (hP : ∀ b, P b → P' b) : Ends bad P' x :=
  ⟨fun b hb => hP b (h.ok b hb), h.avoids⟩

/-- A computation in sequence may use what its first part ends in. -/
theorem bind {x : Except α β} {f : β → Except α γ} (hx : Ends bad P x)
    (hf : ∀ b, P b → Ends bad Q (f b)) : Ends bad Q (x >>= f) := by
  cases x with
  | error a => exact .of_error (hx.avoids.of_error a rfl)
  | ok b => exact hf b (hx.ok b rfl)

end Ends

/-- The computation ends in a value with the property `P`, or stops for a reason with the property
`R`. -/
def EndsOr {α : Type u} {β : Type v} (R : α → Prop) (P : β → Prop) : Except α β → Prop
  | .ok b => P b
  | .error a => R a

variable {σ ε α : Type*}

/-- The machine fed with a list of events. -/
def run (step : σ → ε → Except α σ) (s : σ) : List ε → Except α σ
  | [] => .ok s
  | e :: es => step s e >>= fun s' => run step s' es

/-- Every event of the run from `s` meets `C` at the state it is taken in. -/
def Along (step : σ → ε → Except α σ) (C : σ → ε → Prop) (s : σ) : List ε → Prop
  | [] => True
  | e :: es => C s e ∧ ∀ s', step s e = .ok s' → Along step C s' es

variable {step : σ → ε → Except α σ} {C D : σ → ε → Prop} {I : σ → Prop}

/-- A condition along a run can be checked by running the machine. -/
instance Along.decidable [∀ s e, Decidable (C s e)] (s : σ) :
    (es : List ε) → Decidable (Along step C s es)
  | [] => .isTrue trivial
  | e :: es =>
    match h : step s e with
    | .error _ => decidable_of_iff (C s e) ⟨fun hC => ⟨hC, fun s' hs => by rw [h] at hs; cases hs⟩,
        And.left⟩
    | .ok s₁ =>
      have := Along.decidable s₁ es
      decidable_of_iff (C s e ∧ Along step C s₁ es)
        ⟨fun hC => ⟨hC.1, fun s' hs => by rw [h] at hs; cases hs; exact hC.2⟩,
          fun hC => ⟨hC.1, hC.2 s₁ h⟩⟩

/-- A condition on the events alone. -/
theorem Along.of_forall {D : ε → Prop} (s : σ) {es : List ε} (h : ∀ e ∈ es, D e) :
    Along step (fun _ e => D e) s es := by
  induction es generalizing s with
  | nil => trivial
  | cons e es ih =>
    exact ⟨h e List.mem_cons_self, fun s' _ => ih s' fun e' he' =>
      h e' (List.mem_cons_of_mem _ he')⟩

/-- Two conditions along one run. -/
theorem Along.and {s : σ} {es : List ε} (h : Along step C s es) (h' : Along step D s es) :
    Along step (fun s e => C s e ∧ D s e) s es := by
  induction es generalizing s with
  | nil => trivial
  | cons e es ih => exact ⟨⟨h.1, h'.1⟩, fun s' hs => ih (h.2 s' hs) (h'.2 s' hs)⟩

/-- A run of two lists of events is a run of the first followed by one of the second. -/
theorem run_append (s : σ) (es es' : List ε) :
    run step s (es ++ es') = run step s es >>= fun s' => run step s' es' := by
  induction es generalizing s with
  | nil => rfl
  | cons e es ih =>
    simp only [List.cons_append, run]
    cases h : step s e with
    | error a => rfl
    | ok s' => exact ih s'

/-- The events of the first part of a run meet the condition if all events do. -/
theorem Along.left {s : σ} {es es' : List ε} (h : Along step C s (es ++ es')) :
    Along step C s es := by
  induction es generalizing s with
  | nil => trivial
  | cons e es ih => exact ⟨h.1, fun s' hs => ih (h.2 s' hs)⟩

/-- The events of the second part of a run meet the condition if all events do. -/
theorem Along.right {s s' : σ} {es es' : List ε} (h : Along step C s (es ++ es'))
    (hr : run step s es = .ok s') : Along step C s' es' := by
  induction es generalizing s with
  | nil => cases hr; exact h
  | cons e es ih =>
    obtain ⟨s₁, hs₁, hr'⟩ := bind_eq_ok.mp hr
    exact ih (h.2 s₁ hs₁) hr'

/-- The events of a run meet the condition if those of both parts do. -/
theorem Along.append {s : σ} {es es' : List ε} (h : Along step C s es)
    (h' : ∀ s', run step s es = .ok s' → Along step C s' es') : Along step C s (es ++ es') := by
  induction es generalizing s with
  | nil => exact h' s rfl
  | cons e es ih =>
    refine ⟨h.1, fun s₁ hs₁ => ih (h.2 s₁ hs₁) fun s' hr => h' s' ?_⟩
    exact bind_eq_ok.mpr ⟨s₁, hs₁, hr⟩

/-- What the first state has and every step preserves, the last state of the run has. -/
theorem run_invariant (hstep : ∀ s e s', I s → C s e → step s e = .ok s' → I s')
    {s s' : σ} {es : List ε} (hs : I s) (hC : Along step C s es) (hr : run step s es = .ok s') :
    I s' := by
  induction es generalizing s with
  | nil => cases hr; exact hs
  | cons e es ih =>
    obtain ⟨s₁, hs₁, hr'⟩ := bind_eq_ok.mp hr
    exact ih (hstep s e s₁ hs hC.1 hs₁) (hC.2 s₁ hs₁) hr'

/-- In every run whose events meet `C`, the events meet what follows from `C` and the invariant. -/
theorem run_along (hstep : ∀ s e s', I s → C s e → step s e = .ok s' → I s')
    (hD : ∀ s e, I s → C s e → D s e) {s : σ} {es : List ε} (hs : I s) (hC : Along step C s es) :
    Along step D s es := by
  induction es generalizing s with
  | nil => trivial
  | cons e es ih =>
    exact ⟨hD s e hs hC.1, fun s' hs' => ih (hstep s e s' hs hC.1 hs') (hC.2 s' hs')⟩

/-- A machine that avoids the reasons `bad` at every state with the invariant avoids them in every
run. -/
theorem run_avoids {bad : α → Bool}
    (hstep : ∀ s e s', I s → C s e → step s e = .ok s' → I s')
    (hsafe : ∀ s e, I s → C s e → Avoids bad (step s e))
    {s : σ} {es : List ε} (hs : I s) (hC : Along step C s es) : Avoids bad (run step s es) := by
  induction es generalizing s with
  | nil => exact .ok s
  | cons e es ih =>
    exact (hsafe s e hs hC.1).bind fun s' hs' => ih (hstep s e s' hs hC.1 hs') (hC.2 s' hs')

/-- A machine that never stops at a state with the invariant ends every run in such a state. -/
theorem run_ok (hstep : ∀ s e, I s → C s e → ∃ s', step s e = .ok s' ∧ I s')
    {s : σ} {es : List ε} (hs : I s) (hC : Along step C s es) :
    ∃ s', run step s es = .ok s' ∧ I s' := by
  induction es generalizing s with
  | nil => exact ⟨s, rfl, hs⟩
  | cons e es ih =>
    obtain ⟨s₁, hs₁, hI⟩ := hstep s e hs hC.1
    obtain ⟨s₂, hs₂, hI₂⟩ := ih hI (hC.2 s₁ hs₁)
    exact ⟨s₂, by rw [run, hs₁]; exact hs₂, hI₂⟩

/-- A machine that, at a state with the invariant, stops at exactly the events that do not meet `D`
gets to the end of exactly the runs whose events all meet `D`. -/
theorem run_isOk_iff (hstep : ∀ s e s', I s → C s e → step s e = .ok s' → I s')
    (hiff : ∀ s e, I s → C s e → ((∃ s', step s e = .ok s') ↔ D s e))
    {s : σ} {es : List ε} (hs : I s) (hC : Along step C s es) :
    (∃ s', run step s es = .ok s') ↔ Along step D s es := by
  induction es generalizing s with
  | nil => exact iff_of_true ⟨s, rfl⟩ trivial
  | cons e es ih =>
    rw [Along, ← hiff s e hs hC.1]
    constructor
    · rintro ⟨s', hr⟩
      obtain ⟨s₁, hs₁, hr⟩ := bind_eq_ok.mp hr
      refine ⟨⟨s₁, hs₁⟩, fun s₂ hs₂ => ?_⟩
      have heq : s₁ = s₂ := Except.ok.inj (hs₁.symm.trans hs₂)
      subst heq
      exact (ih (hstep s e s₁ hs hC.1 hs₁) (hC.2 s₁ hs₁)).mp ⟨s', hr⟩
    · rintro ⟨⟨s₁, hs₁⟩, hD⟩
      obtain ⟨s', hr⟩ := (ih (hstep s e s₁ hs hC.1 hs₁) (hC.2 s₁ hs₁)).mpr (hD s₁ hs₁)
      exact ⟨s', by rw [run, hs₁]; exact hr⟩

/-! ## Properties of all the states of a run -/

/-- Every state that the run from `s` passes through has the property `P`. -/
def Always (step : σ → ε → Except α σ) (P : σ → Prop) (s : σ) (es : List ε) : Prop :=
  ∀ es' es'' s', es = es' ++ es'' → run step s es' = .ok s' → P s'

/-- A run has the property at its first state, and after its first event. -/
theorem always_cons {P : σ → Prop} {s : σ} {e : ε} {es : List ε} :
    Always step P s (e :: es) ↔ P s ∧ ∀ s', step s e = .ok s' → Always step P s' es := by
  constructor
  · intro h
    refine ⟨h [] (e :: es) s rfl rfl, fun s' hs es' es'' s'' hes hr => ?_⟩
    refine h (e :: es') es'' s'' (by rw [hes]; rfl) ?_
    exact bind_eq_ok.mpr ⟨s', hs, hr⟩
  · rintro ⟨hP, h⟩ es' es'' s'' hes hr
    cases es' with
    | nil => cases hr; exact hP
    | cons e' es' =>
      obtain ⟨rfl, rfl⟩ := List.cons_eq_cons.mp hes
      obtain ⟨s', hs, hr⟩ := bind_eq_ok.mp hr
      exact h s' hs es' es'' s'' rfl hr

/-- In an empty run there is one state. -/
theorem always_nil {P : σ → Prop} {s : σ} : Always step P s [] ↔ P s := by
  constructor
  · exact fun h => h [] [] s rfl rfl
  · intro hP es' es'' s' hes hr
    obtain ⟨rfl, -⟩ := List.append_eq_nil_iff.mp hes.symm
    cases hr
    exact hP

/-- A property of all the states of a run can be checked by running the machine. -/
instance Always.decidable {P : σ → Prop} [∀ s, Decidable (P s)] (s : σ) :
    (es : List ε) → Decidable (Always step P s es)
  | [] => decidable_of_iff (P s) always_nil.symm
  | e :: es =>
    match h : step s e with
    | .error _ => decidable_of_iff (P s)
        ⟨fun hP => always_cons.mpr ⟨hP, fun s' hs => by rw [h] at hs; cases hs⟩,
          fun hP => (always_cons.mp hP).1⟩
    | .ok s₁ =>
      have : Decidable (Always step P s₁ es) := Always.decidable s₁ es
      decidable_of_iff (P s ∧ Always step P s₁ es)
        ⟨fun hP => always_cons.mpr ⟨hP.1, fun s' hs => by rw [h] at hs; cases hs; exact hP.2⟩,
          fun hP => ⟨(always_cons.mp hP).1, (always_cons.mp hP).2 s₁ h⟩⟩

/-- A machine that never stops and keeps `I`, and that keeps `P` at exactly the events that meet
`D`, has `P` at all states of exactly the runs whose events all meet `D`. -/
theorem always_iff_along {P : σ → Prop}
    (hstep : ∀ s e, I s → P s → ∃ s', step s e = .ok s' ∧ I s' ∧ (P s' ↔ D s e))
    {s : σ} {es : List ε} (hI : I s) (hP : P s) :
    Always step P s es ↔ Along step D s es := by
  induction es generalizing s with
  | nil => exact iff_of_true (always_nil.mpr hP) trivial
  | cons e es ih =>
    obtain ⟨s₁, hs₁, hI₁, hiff⟩ := hstep s e hI hP
    rw [always_cons, Along]
    constructor
    · rintro ⟨-, h⟩
      -- The first state after the event has the property, so the event meets the condition.
      have hP₁ : P s₁ := h s₁ hs₁ [] es s₁ rfl rfl
      refine ⟨hiff.mp hP₁, fun s' hs' => ?_⟩
      obtain rfl : s₁ = s' := Except.ok.inj (hs₁.symm.trans hs')
      exact (ih hI₁ hP₁).mp (h s₁ hs₁)
    · rintro ⟨hD, h⟩
      refine ⟨hP, fun s' hs' => ?_⟩
      obtain rfl : s₁ = s' := Except.ok.inj (hs₁.symm.trans hs')
      exact (ih hI₁ (hiff.mpr hD)).mpr (h s₁ hs₁)

end Lwip
