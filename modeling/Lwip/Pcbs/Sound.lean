import Lwip.Pcbs.Run

/-!
# The lists and the pools are sound

What has to hold of the four lists and the two pools by themselves, without a table (`Stack.Sound`):
the lists end, and what is on them is allocated and is there once, in a state of the list. It holds
in every run in which the application keeps to the rules `Allowed`, and fails after some calls that
break one (`lists_not_sound`).
-/

namespace Lwip.Pcbs

open Netif (IpAddr)

/-- The lists end, and have no pcb in common and none twice. Their pcbs are allocated, from the pool
of the list, and in a state of the list: `CLOSED` with a port, `LISTEN`, `TIME_WAIT`, or none of
these. A pcb in use that has a port, or is in another state than `CLOSED`, is on one of the lists.
The free cells of a pool are its own, and none is there twice. -/
structure Stack.Sound (c : Config) (s : Stack) : Prop where
  are : s.lists.Are (s.pcbs c)
  once : ∀ i, (s.pcbs c i).Nodup
  used : ∀ i, ∀ p ∈ s.pcbs c i, c.InPool i.pool p ∧ s.Used c p
  fits : ∀ i, ∀ p ∈ s.pcbs c i, Fits c p (s.mem p) (.on i)
  listed : ∀ p, s.Used c p → (s.mem p).local_port ≠ 0 ∨ s.state p ≠ .CLOSED → s.Listed c p
  free : ∀ q, (s.free q).Nodup ∧ ∀ p ∈ s.free q, c.InPool q p

/-- `tcp_bind` gets a pcb that is bound already, for an address and a port that are in use. -/
def Stack.bindsAgain (c : Config) (s : Stack) : Event → Bool
  | .bind p ipaddr port =>
    decide (p ∈ s.pcbs c .bound) && decide (port ≠ 0) && s.inUse c ipaddr port
  | _ => false

/-- The application passes pcbs that it has, to `tcp_abort` none that is bound or listening, and to
`tcp_bind` none that is bound, unless it is refused. -/
def Allowed (c : Config) (s : Stack) (ev : Event) : Prop := OnUsed c s ev ∨ s.bindsAgain c ev = true

instance (c : Config) (s : Stack) (ev : Event) : Decidable (Allowed c s ev) :=
  inferInstanceAs (Decidable (_ ∨ _))

variable {c : Config} {s s' : Stack} {place : ℕ → Place} {p : ℕ} {ev : Event}

/-- A cell that is not free in the table is in use. -/
theorem Keeps.used_of_pool (h : Keeps c s place) {q : Memp} (hq : c.InPool q p)
    (hp : place p ≠ .free) : s.Used c p :=
  ⟨hq.lt, fun hmem => hp ((h.free _ p).mp hmem).2, fun hmem => hp ((h.free _ p).mp hmem).2⟩

/-- What a table says about the lists and the pools. -/
theorem Keeps.sound (h : Keeps c s place) : s.Sound c where
  are := h.are
  once := h.nodup_pcbs
  used i p hp := by
    have hpl := h.mem_pcbs.mp hp
    have hpool := h.pool p i hpl
    exact ⟨hpool, h.used_of_pool hpool (by rw [hpl]; exact Place.noConfusion)⟩
  fits i p hp := h.mem_pcbs.mp hp ▸ h.fits p
  listed p hp hopen := by
    by_contra hl
    have hfit := h.fits p
    rw [h.unlisted hp hl] at hfit
    exact hopen.elim (fun hport => hport hfit.2.2.1) fun hst => hst hfit.2.1
  free q := ⟨h.nodup q, fun p hp => ((h.free q p).mp hp).1⟩

/-- `tcp_bind` changes nothing if the address and the port are in use. -/
theorem tcpBind_again {ipaddr : IpAddr} {port : BitVec 16} {ok : Bool} (hport : port ≠ 0)
    (huse : s.inUse c ipaddr port = true) (hb : tcpBind c p s ipaddr port = .ok (ok, s')) :
    s' = s := by
  unfold tcpBind at hb
  obtain ⟨_, -, hb⟩ := bind_eq_ok.mp hb
  rw [portOrNew, if_neg hport, ok_bind] at hb
  dsimp only at hb
  rw [if_pos huse] at hb
  cases hb
  rfl

/-- A table is kept by every event that keeps to the rules. -/
theorem Keeps.allowed (h : Keeps c s place) (hev : Allowed c s ev)
    (hs' : stackStep c s ev = .ok s') : ∃ place', Keeps c s' place' := by
  rcases hev with hev | hev
  · obtain ⟨place', hk, -⟩ := h.steps hev hs'
    exact ⟨place', hk⟩
  · cases ev with
    | bind p ipaddr port =>
      simp only [Stack.bindsAgain, Bool.and_eq_true, decide_eq_true_eq] at hev
      obtain ⟨⟨ok, s₁⟩, hr, hs'⟩ := bind_eq_ok.mp hs'
      cases hs'
      have heq : s₁ = s := tcpBind_again hev.1.2 hev.2 hr
      exact ⟨place, heq ▸ h⟩
    | _ => cases hev

/-- In every run in which the rules are kept the lists and the pools are sound. -/
theorem lists_sound {mem : ℕ → Cell} {es : List Event}
    (hes : Along (stackStep c) (Allowed c) (.init c mem) es)
    (hrun : run (stackStep c) (.init c mem) es = .ok s) : s.Sound c := by
  obtain ⟨place, h⟩ : ∃ place, Keeps c s place :=
    run_invariant (I := fun s => ∃ place, Keeps c s place)
      (fun s ev s' hI hev hs' => by
      obtain ⟨place, h⟩ := hI
      exact h.allowed hev hs') ⟨_, Keeps.init c mem⟩ hes hrun
  exact h.sound

/-- A server that tries to bind its pcb twice to one port, in a run. -/
theorem lists_sound_boundTwice : ∃ s, run (stackStep smallConfig) smallStack
      [.new (true, true) 100, .bind 0 0 80, .bind 0 7 80, .listen 0] = .ok s ∧
    s.Sound smallConfig ∧ s.pcbs smallConfig .listen = [2] := by
  have hes : Along (stackStep smallConfig) (Allowed smallConfig) smallStack
      [.new (true, true) 100, .bind 0 0 80, .bind 0 7 80, .listen 0] := by decide +kernel
  obtain ⟨s, hrun, hlisten⟩ : ∃ s, run (stackStep smallConfig) smallStack
      [.new (true, true) 100, .bind 0 0 80, .bind 0 7 80, .listen 0] = .ok s ∧
        s.pcbs smallConfig .listen = [2] := exists_of_any (by decide +kernel)
  exact ⟨s, hrun, lists_sound hes hrun, hlisten⟩

/-- The run starts with a pcb that is bound to the port 80, and leaves the lists as they should not
be. -/
def Breaks (es : List Event) : Prop :=
  ∃ s, run (stackStep smallConfig) smallStack
    (.new (true, true) 100 :: .bind 0 0 80 :: es) = .ok s ∧ ¬s.Sound smallConfig

/-- A run that leaves a pcb twice on the list of bound pcbs, or a freed one on a list. -/
theorem breaks_of_wrong {es : List Event}
    (h : ∃ s, run (stackStep smallConfig) smallStack
      (.new (true, true) 100 :: .bind 0 0 80 :: es) = .ok s ∧
        ¬((s.pcbs smallConfig .bound).Nodup ∧ ∀ p ∈ s.pcbs smallConfig .bound ++
          s.pcbs smallConfig .listen, s.Used smallConfig p)) : Breaks es := by
  obtain ⟨s, hrun, hwrong⟩ := h
  refine ⟨s, hrun, fun hs => hwrong ⟨hs.once .bound, fun p hp => ?_⟩⟩
  exact (List.mem_append.mp hp).elim (fun hp => (hs.used _ p hp).2) fun hp => (hs.used _ p hp).2

/-- A bound pcb that is bound again is its own successor. A bound pcb that is aborted stays on its
list when it is freed, and so does a listening one, which goes to the wrong pool. -/
theorem lists_not_sound :
    Breaks [.bind 0 0 81] ∧ Breaks [.abort 0 true] ∧ Breaks [.listen 0, .abort 2 true] := by
  refine ⟨?_, ?_, ?_⟩
  all_goals exact breaks_of_wrong (exists_of_any (by decide +kernel))

end Lwip.Pcbs
