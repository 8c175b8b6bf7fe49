import Lwip.Pcbs.Apart

/-!
# Which pcb gets a segment

`tcp_input` takes the first pcb that matches on `tcp_active_pcbs`, on `tcp_tw_pcbs` and on
`tcp_listen_pcbs`, and moves what it finds to the front. Where the pcbs are kept apart (`Apart`),
this does not change what the next segment finds: a segment finds the one pcb that it is for
(`demux`), and no other pcb is touched (`input_isolated`).
-/

namespace Lwip.Pcbs

open Tcp (Opts TcpPcb TcpState Active)
open Netif (IpAddr NetIf ipAddrIsany ipAddrIsmulticast ipAddrIsbroadcast)
open Function (update)

/-! ## Pcbs that are not touched -/

/-- The pcb is what it was, and on the same list. -/
structure Untouched (c : Config) (s s' : Stack) (y : ℕ) : Prop where
  mem : s'.mem y = s.mem y
  pcbs : ∀ i, y ∈ s'.pcbs c i ↔ y ∈ s.pcbs c i

section Untouched

variable {c : Config} {s s' s'' : Stack} {place place' : ℕ → Place} {p y : ℕ} {i : PcbList}

/-- Nothing happens to a pcb where nothing happens. -/
theorem Untouched.refl (s : Stack) (y : ℕ) : Untouched c s s y := ⟨rfl, fun _ => Iff.rfl⟩

/-- A pcb that two steps leave alone is left alone. -/
theorem Untouched.trans (h : Untouched c s s' y) (h' : Untouched c s' s'' y) :
    Untouched c s s'' y :=
  ⟨h'.mem.trans h.mem, fun i => (h'.pcbs i).trans (h.pcbs i)⟩

/-- A pcb with the same place and the same cell was left alone. -/
theorem Reps.untouched (h : Reps c s place) (h' : Reps c s' place') (hpl : place' y = place y)
    (hm : s'.mem y = s.mem y) : Untouched c s s' y :=
  ⟨hm, fun i => by rw [h'.mem_pcbs, h.mem_pcbs, hpl]⟩

/-- The move to the front changes the order of a list only. -/
theorem Keeps.toFront_untouched (h : Keeps c s place) {prev : Option ℕ} {test : Cell → Bool}
    (hf : s.find c i test = some (prev, p)) (y : ℕ) : Untouched c s (s.toFront i prev p) y :=
  h.toReps.untouched (h.toFront hf).toReps rfl rfl

end Untouched

/-! ## The pcb of a segment -/

/-- `tcp_input` drops the segment before it looks for a pcb: it is a broadcast or a multicast. -/
def Segment.dropped (g : Segment) (inp : NetIf) : Bool :=
  ipAddrIsbroadcast g.dest inp || ipAddrIsmulticast g.dest

/-- The pcb that `tcp_input` finds for a segment that comes in by the interface. -/
def Stack.selected (c : Config) (inp : NetIf) (s : Stack) (g : Segment) : Option ℕ :=
  if g.dropped inp then none
  else (((s.find c .active (·.matches g)).or (s.find c .tw (·.matches g))).or
    (s.find c .listen (·.listensTo g))).map Prod.snd

/-- `tcp_input` passes the segment to `p`, after a move to the front of a list. -/
inductive PassesTo (c : Config) (e : InputEnv) (g : Segment) (s : Stack) (p : ℕ) : Prop where
  | active {s' : Stack} : p ∈ s.pcbs c .active → (∀ y, Untouched c s s' y) →
    tcpInput c e g s = tcpInputActive c e p g s' → PassesTo c e g s p
  | timeWait : p ∈ s.pcbs c .tw →
    tcpInput c e g s = (ofTcp (Tcp.tcpTimewaitInput s.ticks e.out (s.mem p).pcb g.i) >>= fun r =>
      .ok ((s.setPcb p r.1).route e.src p)) → PassesTo c e g s p
  | listen {s' : Stack} : p ∈ s.pcbs c .listen → (∀ y, Untouched c s s' y) →
    tcpInput c e g s = tcpListenInput c e p g s' → PassesTo c e g s p

/-- The pcb that the segment is for: that of its connection, or a listening one if there is no
connection. -/
inductive IsFor (c : Config) (s : Stack) (g : Segment) (p : ℕ) : Prop where
  | conn (hp : p ∈ s.pcbs c .active ∨ p ∈ s.pcbs c .tw) (hm : (s.mem p).matches g = true)
  | listen (hp : p ∈ s.pcbs c .listen) (hl : (s.mem p).listensTo g = true)
    (hno : ∀ y, y ∈ s.pcbs c .active ∨ y ∈ s.pcbs c .tw → (s.mem y).matches g = false)

section Select

variable {c : Config} {s s' : Stack} {place : ℕ → Place} {g : Segment} {p p' : ℕ} {ev : Event}
  {inp : NetIf} {e : InputEnv}

/-- What `tcp_input` finds is a pcb that the segment is for. -/
theorem Keeps.isFor_of_selected (h : Keeps c s place) (hs : s.selected c inp g = some p) :
    g.dropped inp = false ∧ IsFor c s g p := by
  unfold Stack.selected at hs
  split at hs
  · cases hs
  next hdropped =>
  refine ⟨Bool.eq_false_iff.mpr hdropped, ?_⟩
  obtain ⟨⟨prev, q⟩, hq, rfl⟩ := Option.map_eq_some_iff.mp hs
  rcases Option.or_eq_some_iff.mp hq with hq | ⟨hno, hq⟩
  · rcases Option.or_eq_some_iff.mp hq with hq | ⟨-, hq⟩
    · obtain ⟨hp, hm, -⟩ := h.find hq
      exact .conn (.inl (h.mem_pcbs.mpr hp)) hm
    · obtain ⟨hp, hm, -⟩ := h.find hq
      exact .conn (.inr (h.mem_pcbs.mpr hp)) hm
  · obtain ⟨hp, hl, -⟩ := h.find hq
    obtain ⟨ha, ht⟩ := Option.or_eq_none_iff.mp hno
    refine .listen (h.mem_pcbs.mpr hp) hl fun y hy => ?_
    rcases hy with hy | hy
    · exact h.find_none ha (h.mem_pcbs.mp hy)
    · exact h.find_none ht (h.mem_pcbs.mp hy)

/-- If there is a pcb that the segment is for, `tcp_input` finds one. -/
theorem Keeps.selected_of_isFor (h : Keeps c s place) (hdropped : g.dropped inp = false)
    (hp : IsFor c s g p) : ∃ q, s.selected c inp g = some q := by
  rw [← Option.isSome_iff_exists, Stack.selected, if_neg (Bool.eq_false_iff.mp hdropped),
    Option.isSome_map, Option.isSome_or, Option.isSome_or]
  by_contra hno
  rw [Bool.not_eq_true, Bool.or_eq_false_iff, Bool.or_eq_false_iff, Option.isSome_eq_false_iff,
    Option.isSome_eq_false_iff, Option.isSome_eq_false_iff, Option.isNone_iff_eq_none,
    Option.isNone_iff_eq_none, Option.isNone_iff_eq_none] at hno
  obtain ⟨⟨ha, ht⟩, hl⟩ := hno
  cases hp with
  | conn hp hm =>
    rcases hp with hp | hp
    · rw [h.find_none ha (h.mem_pcbs.mp hp)] at hm
      cases hm
    · rw [h.find_none ht (h.mem_pcbs.mp hp)] at hm
      cases hm
  | listen hp hm =>
    rw [h.find_none hl (h.mem_pcbs.mp hp)] at hm
    cases hm

/-- A segment is for one pcb at most. -/
theorem Keeps.isFor_unique (h : Keeps c s place) (ha : Apart (s.table place)) (hp : IsFor c s g p)
    (hp' : IsFor c s g p') : p = p' := by
  by_contra hne
  have hd := ha.distinct p p' hne
  cases hp with
  | conn hp hm =>
    cases hp' with
    | conn hp' hm' =>
      obtain ⟨hrport, hlport, hrip, hlip⟩ := matches_iff.mp hm
      obtain ⟨hrport', hlport', hrip', hlip'⟩ := matches_iff.mp hm'
      have hsame : SameRemote (s.mem p) (s.mem p') :=
        ⟨hlport.trans hlport'.symm, hrip.trans hrip'.symm, hrport.trans hrport'.symm⟩
      have hclash := hd.conn (h.conn_iff.mp hp) (h.conn_iff.mp hp') hsame
      exact (clashes_eq_false.mp hclash).2.2 (hlip.trans hlip'.symm)
    | listen _ _ hno =>
      rw [hno p hp] at hm
      cases hm
  | listen hp hl hno =>
    cases hp' with
    | conn hp' hm' =>
      rw [hno p' hp'] at hm'
      cases hm'
    | listen hp' hl' _ =>
      obtain ⟨hip, hport⟩ := listensTo_iff.mp hl
      obtain ⟨hip', hport'⟩ := listensTo_iff.mp hl'
      have hclash := hd.server (.inr (h.mem_pcbs.mp hp)) (.inr (h.mem_pcbs.mp hp'))
        (hport.trans hport'.symm)
      -- Both have the address of the segment, or any address.
      obtain ⟨hne, hne', hdiff⟩ := clashes_eq_false.mp hclash
      exact hdiff ((hip.resolve_left hne).trans (hip'.resolve_left hne').symm)

/-- What `tcp_input` finds is the pcb that the segment is for. -/
theorem Keeps.selected_iff (h : Keeps c s place) (ha : Apart (s.table place)) :
    s.selected c inp g = some p ↔ g.dropped inp = false ∧ IsFor c s g p := by
  refine ⟨h.isFor_of_selected, fun hp => ?_⟩
  obtain ⟨q, hq⟩ := h.selected_of_isFor hp.1 hp.2
  rw [hq, h.isFor_unique ha (h.isFor_of_selected hq).2 hp.2]

/-- `tcp_input` passes the segment to the pcb that it finds. -/
theorem Keeps.passesTo (h : Keeps c s place) (hs : s.selected c e.inp g = some p) :
    PassesTo c e g s p := by
  unfold Stack.selected at hs
  split at hs
  · cases hs
  next hdropped =>
  have hdropped : ¬ (ipAddrIsbroadcast g.dest e.inp || ipAddrIsmulticast g.dest) = true := hdropped
  obtain ⟨⟨prev, q⟩, hq, rfl⟩ := Option.map_eq_some_iff.mp hs
  cases ha : s.find c .active (·.matches g) with
  | some r =>
    rw [ha] at hq
    cases hq
    have hplace := (h.toReps.find ha).1
    refine .active (h.mem_pcbs.mpr hplace) (h.toFront_untouched ha) ?_
    unfold tcpInput
    rw [if_neg hdropped, h.assertStates_ok, ok_bind, ha]
    dsimp only
    rw [h.assertNext_ok hplace, ok_bind, (h.toFront ha).assertNext_ok hplace, ok_bind]
  | none =>
    rw [ha] at hq
    have hin : tcpInput c e g s = tcpInputOther c e g s := by
      unfold tcpInput
      rw [if_neg hdropped, h.assertStates_ok, ok_bind, ha]
    unfold tcpInputOther at hin
    rw [h.assertStates_ok, ok_bind] at hin
    cases ht : s.find c .tw (·.matches g) with
    | some r =>
      rw [ht] at hq hin
      cases hq
      exact .timeWait (h.mem_pcbs.mpr (h.toReps.find ht).1) hin
    | none =>
      rw [ht, Option.none_or, Option.none_or] at hq
      rw [ht, hq] at hin
      exact .listen (h.mem_pcbs.mpr (h.toReps.find hq).1) (h.toFront_untouched hq) hin

/-- A segment that is not dropped is passed to the one pcb that it is for: the pcb of its connection
if there is one, and else the listening pcb. So it does not depend on the order of the lists, which
earlier segments have changed. -/
theorem demux {mem : ℕ → Cell} {es : List Event}
    (hes : Along (stackStep c) (fun s ev => OnUsed c s ev ∧ Served c s ev) (.init c mem) es)
    (hrun : run (stackStep c) (.init c mem) es = .ok s) (e : InputEnv) (g : Segment) (p : ℕ) :
    (s.selected c e.inp g = some p ↔ g.dropped e.inp = false ∧ IsFor c s g p) ∧
      (s.selected c e.inp g = some p → PassesTo c e g s p) := by
  obtain ⟨place, h, ha⟩ := exists_apart (planned_of_served hes) hrun
  exact ⟨h.selected_iff ha, h.passesTo⟩

/-- A segment for the connection that has the second pcb in `servedRun`. -/
def forSecond : Segment :=
  ⟨9, 7, 1001, 80,
    { seg := { seqno := 6, len := 0, flags := { ack := true } }, ackno := 1, wnd := 1000 }⟩

/-- What `tcp_input` finds besides this segment. -/
def forSecondEnv : InputEnv :=
  { inp := { ip_addr := 7, netmask := 0xff, gw := 0, hwaddr := Netif.ethzero } }

/-- The second connection of the run gets its segment. -/
theorem demux_servedRun : ∃ s, run (stackStep smallConfig) (.init smallConfig fun _ =>
      { pcb := Tcp.tcpAlloc .shipped 0 0 }) servedRun = .ok s ∧ IsFor smallConfig s forSecond 1 ∧
      PassesTo smallConfig forSecondEnv forSecond s 1 := by
  have hes : Along (stackStep smallConfig) (fun s ev => OnUsed smallConfig s ev ∧
      Served smallConfig s ev) smallStack servedRun := by decide +kernel
  obtain ⟨s, hrun, hval⟩ : ∃ s, run (stackStep smallConfig) smallStack servedRun = .ok s ∧
      s.selected smallConfig forSecondEnv.inp forSecond = some 1 :=
    exists_of_any (by decide +kernel)
  obtain ⟨hiff, hpass⟩ := demux hes hrun forSecondEnv forSecond 1
  exact ⟨s, hrun, (hiff.mp hval).2, hpass hval⟩

end Select

/-! ## The other pcbs -/

section Others

variable {c : Config} {s s' s'' : Stack} {place place' : ℕ → Place} {g : Segment} {p y : ℕ}
  {e : InputEnv} {i : PcbList}

/-- A change of one pcb leaves the others alone. -/
theorem setPcb_route_untouched (hy : y ≠ p) (pcb : TcpPcb) (src : Option IpAddr) :
    Untouched c s ((s.setPcb p pcb).route src p) y := by
  refine ⟨?_, fun _ => Iff.rfl⟩
  have hroute : ((s.setPcb p pcb).route src p).mem y = (s.setPcb p pcb).mem y :=
    Function.update_of_ne hy ..
  rw [hroute]
  exact Function.update_of_ne hy ..

/-- `tcp_input` leaves the other pcbs alone when an active pcb was found. -/
theorem Keeps.inputActive_untouched (h : Keeps c s place) (hp : place p = .on .active) (hy : y ≠ p)
    (hi : tcpInputActive c e p g s = .ok s') : Untouched c s s' y := by
  obtain ⟨⟨conn, sent⟩, -, hi⟩ := bind_eq_ok.mp hi
  have hrmv : Untouched c s (s.TCP_RMV c .active p) y :=
    h.toReps.untouched (h.toReps.rmv hp) (Function.update_of_ne hy ..) rfl
  cases conn with
  | active pcb =>
    cases hi
    exact setPcb_route_untouched hy pcb e.src
  | timeWait pcb =>
    cases hi
    have hpool : c.InPool .TCP_PCB p := h.pool p _ hp
    have hreps := (h.toReps.rmv hp).setCell p { s.mem p with pcb }
    have hreg : Untouched c (s.TCP_RMV c .active p)
        (((s.TCP_RMV c .active p).setPcb p pcb).TCP_REG .tw p) y :=
      (h.toReps.rmv hp).untouched (hreps.reg (i := .tw) (Function.update_self ..) hpool)
        (Function.update_of_ne hy ..) (Function.update_of_ne hy ..)
    refine (hrmv.trans hreg).trans ⟨Function.update_of_ne hy .., fun _ => Iff.rfl⟩
  | gone =>
    cases hi
    exact hrmv.trans ⟨rfl, fun _ => Iff.rfl⟩

/-- `tcp_alloc` leaves the other pcbs, if there is a free one. -/
theorem Keeps.alloc_untouched (h : Keeps c s place) {acks : Bool × Bool} {iss : Serial}
    {prio : UInt8}
    {r : Option ℕ × Stack} (ha : tcpAlloc c acks iss prio s = .ok r) (hroom : s.free .TCP_PCB ≠ [])
    (hy : place y ≠ .free) : Untouched c s r.2 y := by
  obtain ⟨p, free, hfree⟩ := List.exists_cons_of_ne_nil hroom
  have hm : s.mempMalloc .TCP_PCB = some (p, { s with free := update s.free .TCP_PCB free }) := by
    unfold Stack.mempMalloc
    rw [hfree]
  have hp : place p = .free := (h.toReps.mempMalloc hm).1
  have hmalloc : Pcbs.mallocPcb c iss s = some (p, ({ s with
      free := update s.free .TCP_PCB free } : Stack).setCell p (newCell c s.ticks iss)) := by
    unfold Pcbs.mallocPcb
    rw [hm]
    rfl
  unfold tcpAlloc at ha
  rw [hmalloc] at ha
  cases ha
  refine ⟨Function.update_of_ne ?_ .., fun _ => Iff.rfl⟩
  rintro rfl
  exact hy hp

/-- A segment for a listening pcb leaves the pcbs on the lists, except that room may be made. -/
theorem Keeps.listenInput_untouched (h : Keeps c s place) (hy : place y = .on i)
    (hi : tcpListenInput c e p g s = .ok s') :
    Untouched c s s' y ∨ s.free .TCP_PCB = [] ∧ (place y).Conn := by
  unfold tcpListenInput at hi
  split at hi
  · cases hi
    exact .inl (.refl s y)
  split at hi
  swap
  · cases hi
    exact .inl (.refl s y)
  obtain ⟨⟨r, s₁⟩, ha, hi⟩ := bind_eq_ok.mp hi
  by_cases hkill : s.free .TCP_PCB = [] ∧ (place y).Conn
  · exact .inr hkill
  left
  obtain ⟨place₁, hk₁, -, hclear, hoff⟩ := h.alloc ha
  -- Either nothing was killed, or nothing but connections.
  have hleft : Untouched c s s₁ y := by
    by_cases hroom : s.free .TCP_PCB = []
    · have hserver : (s.table place).place y = .on .listen ∨
          (s.table place).place y = .on .bound := by
        show place y = _ ∨ place y = _
        rw [hy] at hkill ⊢
        cases i with
        | bound => exact .inr rfl
        | listen => exact .inl rfl
        | active => exact absurd ⟨hroom, .inl rfl⟩ hkill
        | tw => exact absurd ⟨hroom, .inr rfl⟩ hkill
      have hstays : place₁ y = place y := hclear.stays y hserver
      exact h.toReps.untouched hk₁.toReps hstays (hclear.left y i (hstays.trans hy)).2
    · exact h.alloc_untouched ha hroom (by rw [hy]; exact Place.noConfusion)
  cases r with
  | none =>
    cases hi
    exact hleft
  | some npcb =>
    have hoff : place₁ npcb = .off := hoff npcb rfl
    have hyn : y ≠ npcb := by
      rintro rfl
      have hon : place₁ y = .on i := hk₁.mem_pcbs.mp ((hleft.pcbs i).mpr (h.mem_pcbs.mpr hy))
      rw [hoff] at hon
      cases hon
    obtain ⟨⟨q, out⟩, -, hi⟩ := bind_eq_ok.mp hi
    dsimp only at hi
    set env : Tcp.ListenEnv :=
      { e.listen with ticks := s₁.ticks, keepalive := (s₁.mem p).pcb.keepalive }
    set x : Cell := { s₁.mem npcb with
      local_ip := g.dest
      local_port := (s₁.mem p).local_port
      remote_ip := g.src
      remote_port := g.srcPort
      pcb := Tcp.listenPcb c.o env g.i }
    have hpool : c.InPool .TCP_PCB npcb := by
      have hfit := hk₁.fits npcb
      rw [hoff] at hfit
      exact hfit.1
    have hreps := (hk₁.toReps.setCell npcb x).reg (i := .active) hoff hpool
    have hreg : Untouched c s₁ ((s₁.setCell npcb x).TCP_REG .active npcb) y :=
      hk₁.toReps.untouched hreps (Function.update_of_ne hyn ..) (Function.update_of_ne hyn ..)
    refine hleft.trans (hreg.trans ?_)
    cases q with
    | some pcb =>
      cases hi
      exact ⟨Function.update_of_ne hyn .., fun _ => Iff.rfl⟩
    | none =>
      have hfit : Active x.pcb.state := by show Active .SYN_RCVD; decide
      have hk₂ : Keeps c ((s₁.setCell npcb x).TCP_REG .active npcb)
          (update place₁ npcb (.on .active)) :=
        ⟨hreps, fits_update hk₁.fits hfit, hk₁.range⟩
      obtain ⟨x', hk₃, hmem⟩ := hk₂.abandon (.inl (Function.update_self ..)) hi
      refine hk₂.toReps.untouched hk₃.toReps (Function.update_of_ne hyn ..) ?_
      rw [hmem]
      exact Function.update_of_ne hyn ..

/-- A segment does not touch the pcbs that it is not passed to, whatever it contains. The one
exception is a segment for a listening pcb when all pcbs are in use: then one connection may have to
give way. -/
theorem input_isolated {mem : ℕ → Cell} {es : List Event}
    (hes : Along (stackStep c) (OnUsed c) (.init c mem) es)
    (hrun : run (stackStep c) (.init c mem) es = .ok s)
    (hi : tcpInput c e g s = .ok s') (hy : s.Listed c y) (hsel : s.selected c e.inp g ≠ some y) :
    Untouched c s s' y ∨ s.free .TCP_PCB = [] ∧ (y ∈ s.pcbs c .active ∨ y ∈ s.pcbs c .tw) ∧
      ∃ p ∈ s.pcbs c .listen, s.selected c e.inp g = some p := by
  obtain ⟨place, h⟩ := exists_keeps hes hrun
  obtain ⟨i, hyi⟩ : ∃ i, place y = .on i := by
    rcases hy with hy | hy | hy | hy
    all_goals exact ⟨_, h.mem_pcbs.mp hy⟩
  unfold Stack.selected at hsel ⊢
  unfold tcpInput at hi
  split at hi
  · cases hi
    exact .inl (.refl s y)
  next hdropped =>
  have hdropped : ¬ g.dropped e.inp = true := hdropped
  rw [if_neg hdropped] at hsel ⊢
  obtain ⟨_, -, hi⟩ := bind_eq_ok.mp hi
  split at hi
  · -- The segment is for an active connection.
    next prev p hf =>
    rw [hf] at hsel
    have hne : y ≠ p := by
      rintro rfl
      exact hsel rfl
    obtain ⟨_, -, hi⟩ := bind_eq_ok.mp hi
    obtain ⟨_, -, hi⟩ := bind_eq_ok.mp hi
    exact .inl ((h.toFront_untouched hf y).trans
      ((h.toFront hf).inputActive_untouched (h.toReps.find hf).1 hne hi))
  next hf =>
  rw [hf, Option.none_or] at hsel ⊢
  obtain ⟨_, -, hi⟩ := bind_eq_ok.mp hi
  split at hi
  · -- It is for a connection in `TIME_WAIT`.
    next prev p ht =>
    rw [ht] at hsel
    have hne : y ≠ p := by
      rintro rfl
      exact hsel rfl
    obtain ⟨r, -, hi⟩ := bind_eq_ok.mp hi
    cases hi
    exact .inl (setPcb_route_untouched hne r.1 e.src)
  next ht =>
  rw [ht, Option.none_or] at hsel ⊢
  split at hi
  · -- It is for a listening pcb.
    next prev lpcb hl =>
    have hlpcb : lpcb ∈ s.pcbs c .listen := h.mem_pcbs.mpr (h.toReps.find hl).1
    rcases (h.toFront hl).listenInput_untouched hyi hi with hu | ⟨hroom, hconn⟩
    · exact .inl ((h.toFront_untouched hl y).trans hu)
    · exact .inr ⟨hroom, h.conn_iff.mpr hconn, lpcb, hlpcb, by rw [hl]; rfl⟩
  · cases hi
    exact .inl (.refl s y)

/-- The segment of the second connection leaves the first one alone. -/
theorem input_isolated_servedRun : ∃ s s', run (stackStep smallConfig) (.init smallConfig fun _ =>
      { pcb := Tcp.tcpAlloc .shipped 0 0 }) servedRun = .ok s ∧
    tcpInput smallConfig forSecondEnv forSecond s = .ok s' ∧ Untouched smallConfig s s' 0 := by
  have hes : Along (stackStep smallConfig) (OnUsed smallConfig) smallStack servedRun := by
    decide +kernel
  obtain ⟨s, hrun, hsel, hactive, hlisten, hok⟩ :
      ∃ s, run (stackStep smallConfig) smallStack servedRun = .ok s ∧
        s.selected smallConfig forSecondEnv.inp forSecond = some 1 ∧
        s.pcbs smallConfig .active = [0, 1] ∧ s.pcbs smallConfig .listen = [2] ∧
        (tcpInput smallConfig forSecondEnv forSecond s).isOk = true :=
    exists_of_any (by decide +kernel)
  obtain ⟨s', hi⟩ := exists_of_isOk hok
  refine ⟨s, s', hrun, hi, ?_⟩
  have hy : s.Listed smallConfig 0 := .inr (.inr (.inl (by rw [hactive]; decide)))
  rcases input_isolated hes hrun hi hy (by rw [hsel]; decide)
    with h | ⟨-, -, p, hp, hsel'⟩
  · exact h
  · rw [hlisten, List.mem_singleton] at hp
    rw [hsel, hp] at hsel'
    cases hsel'

end Others

end Lwip.Pcbs
