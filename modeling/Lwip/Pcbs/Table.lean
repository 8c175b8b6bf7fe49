import Lwip.Pcbs.Input
import Lwip.Tcp.ListStates
import Mathlib.Logic.Relation

/-!
# The table of pcbs

What the lists and the pools are for: every cell is free, in use but on no list, or on one of the
lists (`Place`). `Reps` says that the lists and the free cells of a `Stack` are those of such a
table. Each operation on the lists and pools is then a change of the place of one cell, and the
order of the lists does not matter. `Fits` says what the place of a cell tells about its contents.

`Move` lists what the stack does to the table by itself, without a call of the application that
opens a connection or a listener.
-/

namespace Lwip.Pcbs

open Tcp (Opts TcpPcb TcpState)
open Netif (IpAddr ipAddrIsany)
open Function (update)

/-- Where a cell is. -/
inductive Place where
  | free | off | on (i : PcbList)
  deriving DecidableEq, Repr

/-- The pool of the pcbs of a list. -/
def PcbList.pool : PcbList → Memp
  | .listen => .TCP_PCB_LISTEN
  | .bound | .active | .tw => .TCP_PCB

/-- The lists and the free cells are those of the table. -/
structure Reps (c : Config) (s : Stack) (place : ℕ → Place) : Prop where
  lists : ∃ ls, s.lists.Are ls ∧ ∀ i p, p ∈ ls i ↔ place p = .on i
  nodup : ∀ q, (s.free q).Nodup
  free : ∀ q p, p ∈ s.free q ↔ c.InPool q p ∧ place p = .free
  pool : ∀ p i, place p = .on i → c.InPool i.pool p

/-- What the place of a cell tells about it. A pcb that is on no list is as `tcp_new` left it, as
far as the lists are concerned. -/
def Fits (c : Config) (p : ℕ) (x : Cell) : Place → Prop
  | .free => True
  | .off => c.InPool .TCP_PCB p ∧ x.pcb.state = .CLOSED ∧ x.local_port = 0 ∧ x.local_ip = 0
  | .on .bound => x.pcb.state = .CLOSED ∧ x.local_port ≠ 0
  | .on .listen => x.pcb.state = .LISTEN
  | .on .active => Tcp.Active x.pcb.state
  | .on .tw => x.pcb.state = .TIME_WAIT

/-- The range of `tcp_new_port`. -/
def InRange (port : BitVec 16) : Prop :=
  TCP_LOCAL_PORT_RANGE_START ≤ port ∧ port ≤ TCP_LOCAL_PORT_RANGE_END

/-- The stack keeps the table. -/
structure Keeps (c : Config) (s : Stack) (place : ℕ → Place) : Prop extends Reps c s place where
  fits : ∀ p, Fits c p (s.mem p) (place p)
  range : InRange s.port

/-- A cell of a pool is a cell. -/
theorem Config.InPool.lt {c : Config} {q : Memp} {p : ℕ} (h : c.InPool q p) : p < c.total := by
  unfold Config.total
  cases q with
  | TCP_PCB => exact Nat.lt_of_lt_of_le h (Nat.le_add_right _ _)
  | TCP_PCB_LISTEN => exact h.2

/-- The pools have no cell in common. -/
theorem Config.InPool.unique {c : Config} {q q' : Memp} {p : ℕ} (h : c.InPool q p)
    (h' : c.InPool q' p) : q = q' := by
  cases q <;> cases q'
  · rfl
  · exact absurd h (Nat.not_lt_of_le h'.1)
  · exact absurd h' (Nat.not_lt_of_le h.1)
  · rfl

/-! ## Lists and pools -/

namespace Reps

variable {c : Config} {s s' : Stack} {place : ℕ → Place} {p : ℕ} {i : PcbList} {q : Memp}

/-- Nothing else of the stack matters. -/
theorem of_eq (h : Reps c s place) (hl : s'.lists = s.lists) (hf : s'.free = s.free) :
    Reps c s' place := by
  obtain ⟨ls, hls, hplace⟩ := h.lists
  exact ⟨⟨ls, hl ▸ hls, hplace⟩, fun q => hf ▸ h.nodup q, fun q p => hf ▸ h.free q p, h.pool⟩

/-- The contents of a cell do not matter for the lists. -/
theorem setCell (h : Reps c s place) (p : ℕ) (x : Cell) : Reps c (s.setCell p x) place :=
  h.of_eq rfl rfl

/-- A search goes through all of a list. -/
theorem length_le (h : Reps c s place) {ls : PcbList → List ℕ} (hls : s.lists.Are ls)
    (hplace : ∀ i p, p ∈ ls i ↔ place p = .on i) (i : PcbList) : (ls i).length ≤ c.total :=
  (hls.walk i).length_le fun p hp => (h.pool p i ((hplace i p).mp hp)).lt

/-- A pcb is on a list if that is its place. -/
theorem mem_pcbs (h : Reps c s place) : p ∈ s.pcbs c i ↔ place p = .on i := by
  obtain ⟨ls, hls, hplace⟩ := h.lists
  unfold Stack.pcbs
  rw [(hls.walk i).cells_eq (h.length_le hls hplace i)]
  exact hplace i p

/-- The lists of a table, by the cells that a search comes to. -/
theorem are (h : Reps c s place) : s.lists.Are (s.pcbs c) := by
  obtain ⟨ls, hls, hplace⟩ := h.lists
  have hpcbs : s.pcbs c = ls := by
    funext i
    exact (hls.walk i).cells_eq (h.length_le hls hplace i)
  rwa [hpcbs]

/-- A list is not longer than there are cells. -/
theorem pcbs_length (h : Reps c s place) (i : PcbList) : (s.pcbs c i).length ≤ c.total :=
  h.length_le h.are (fun _ _ => h.mem_pcbs) i

/-- A cell that is not on a list is linked by none. -/
theorem not_mem_pcbs (h : Reps c s place) (hp : ∀ i, place p ≠ .on i) (i : PcbList) :
    p ∉ s.pcbs c i :=
  fun hmem => hp i (h.mem_pcbs.mp hmem)

/-- The places of the cells after a change of one of them, from the list that changed. -/
theorem mem_update (h : Reps c s place) {k : List ℕ} {pl : Place}
    (hk : ∀ x, x ∈ k ↔ update place p pl x = .on i) (hp : ∀ j, j ≠ i → place p ≠ .on j)
    (hpl : ∀ j, j ≠ i → pl ≠ .on j) (j : PcbList) (x : ℕ) :
    x ∈ update (s.pcbs c) i k j ↔ update place p pl x = .on j := by
  by_cases hj : j = i
  · subst hj
    rw [Function.update_self]
    exact hk x
  · rw [Function.update_of_ne hj, h.mem_pcbs]
    by_cases hx : x = p
    · subst hx
      rw [Function.update_self]
      exact iff_of_false (hp j hj) (hpl j hj)
    · rw [Function.update_of_ne hx]

/-- A change that takes a cell off the free cells of no pool. -/
theorem free_update (h : Reps c s place) {pl : Place} (hp : place p ≠ .free) (hpl : pl ≠ .free)
    (q : Memp) (x : ℕ) : x ∈ s.free q ↔ c.InPool q x ∧ update place p pl x = .free := by
  rw [h.free]
  by_cases hx : x = p
  · subst hx
    rw [Function.update_self]
    exact iff_of_false (fun h => hp h.2) (fun h => hpl h.2)
  · rw [Function.update_of_ne hx]

/-- A pcb is put into a place of its own pool only. -/
theorem pool_update (h : Reps c s place) {pl : Place} (hpl : ∀ i, pl = .on i → c.InPool i.pool p)
    (x : ℕ) (i : PcbList) (hx : update place p pl x = .on i) : c.InPool i.pool x := by
  by_cases hxp : x = p
  · subst hxp
    rw [Function.update_self] at hx
    exact hpl i hx
  · rw [Function.update_of_ne hxp] at hx
    exact h.pool x i hx

/-- `TCP_REG` puts a pcb on a list. -/
theorem reg (h : Reps c s place) (hp : place p = .off) (hi : c.InPool i.pool p) :
    Reps c (s.TCP_REG i p) (update place p (.on i)) := by
  have hoff : ∀ j, place p ≠ .on j := fun j hj => by rw [hp] at hj; cases hj
  refine ⟨⟨_, h.are.push (h.not_mem_pcbs hoff) i, h.mem_update (fun x => ?_) (fun j _ => hoff j)
    ?_⟩, h.nodup, h.free_update (by rw [hp]; exact Place.noConfusion) Place.noConfusion,
    h.pool_update ?_⟩
  · rw [List.mem_cons, h.mem_pcbs]
    by_cases hx : x = p
    · subst hx
      rw [Function.update_self]
      exact iff_of_true (.inl rfl) rfl
    · rw [Function.update_of_ne hx, or_iff_right hx]
  · rintro j hj ⟨⟩
    exact hj rfl
  · rintro j ⟨⟩
    exact hi

/-- A cell of a list is unlinked from it, by whatever operation leaves the cells before and behind
it. -/
theorem unlinked (h : Reps c s place) {k k' : List ℕ} (hk : s.pcbs c i = k ++ p :: k')
    {l' : Lists PcbList} (hl : l'.Are (update (s.pcbs c) i (k ++ k'))) :
    Reps c { s with lists := l' } (update place p .off) := by
  have hp : place p = .on i :=
    h.mem_pcbs.mp (by rw [hk]; exact List.mem_append_right k List.mem_cons_self)
  have hnodup : (k ++ p :: k').Nodup := hk ▸ (h.are.walk i).nodup
  have hout : p ∉ k ++ k' := (List.nodup_cons.mp (List.nodup_middle.mp hnodup)).1
  refine ⟨⟨_, hl, h.mem_update (fun x => ?_) ?_ (fun _ _ => Place.noConfusion)⟩, h.nodup,
    h.free_update (by rw [hp]; exact Place.noConfusion) Place.noConfusion,
    h.pool_update fun _ => Place.noConfusion⟩
  · by_cases hx : x = p
    · subst hx
      rw [Function.update_self]
      exact iff_of_false hout Place.noConfusion
    · rw [Function.update_of_ne hx, ← h.mem_pcbs, hk]
      simp [hx]
  · intro j hj hpj
    rw [hp] at hpj
    cases hpj
    exact hj rfl

/-- `TCP_RMV` takes a pcb off its list. -/
theorem rmv (h : Reps c s place) (hp : place p = .on i) :
    Reps c (s.TCP_RMV c i p) (update place p .off) := by
  obtain ⟨k, k', hk⟩ := List.append_of_mem (h.mem_pcbs.mpr hp)
  exact h.unlinked hk (h.are.unlink hk (h.pcbs_length i))

/-- `TCP_RMV` of a cell that is on no list. -/
theorem rmv_loose (h : Reps c s place) (hp : ∀ j, place p ≠ .on j) (i : PcbList) :
    Reps c (s.TCP_RMV c i p) place :=
  ⟨⟨_, h.are.unlink_loose (h.not_mem_pcbs hp) (h.pcbs_length i), fun _ _ => h.mem_pcbs⟩, h.nodup,
    h.free, h.pool⟩

/-- `TCP_RMV` of a cell that is on the list or on none. -/
theorem rmv_off (h : Reps c s place) (hp : place p = .off ∨ place p = .on i) :
    Reps c (s.TCP_RMV c i p) (update place p .off) := by
  rcases hp with hp | hp
  · have hloose := h.rmv_loose (p := p) (fun j hj => by rw [hp] at hj; cases hj) i
    rwa [show update place p .off = place by rw [← hp, Function.update_eq_self]]
  · exact h.rmv hp

/-- `memp_free` frees a cell. -/
theorem mempFree (h : Reps c s place) (hp : place p = .off) (hq : c.InPool q p) :
    Reps c (s.mempFree q p) (update place p .free) := by
  have hnot : ∀ q', p ∉ s.free q' := fun q' hmem => by
    have := ((h.free q' p).mp hmem).2
    rw [hp] at this
    cases this
  refine ⟨⟨_, h.are, fun i x => ?_⟩, fun q' => ?_, fun q' x => ?_, h.pool_update fun _ =>
    Place.noConfusion⟩
  · rw [h.mem_pcbs]
    by_cases hx : x = p
    · subst hx
      rw [Function.update_self]
      exact iff_of_false (fun hx => by rw [hp] at hx; cases hx) Place.noConfusion
    · rw [Function.update_of_ne hx]
  · show (update s.free q (p :: s.free q) q').Nodup
    by_cases hqq : q' = q
    · subst hqq
      rw [Function.update_self]
      exact List.nodup_cons.mpr ⟨hnot q', h.nodup q'⟩
    · rw [Function.update_of_ne hqq]
      exact h.nodup q'
  · show x ∈ update s.free q (p :: s.free q) q' ↔ _
    by_cases hx : x = p
    · subst hx
      rw [Function.update_self]
      by_cases hqq : q' = q
      · subst hqq
        rw [Function.update_self]
        exact iff_of_true List.mem_cons_self ⟨hq, rfl⟩
      · rw [Function.update_of_ne hqq]
        exact iff_of_false (hnot q') fun hp' => hqq (hp'.1.unique hq)
    · rw [Function.update_of_ne hx]
      by_cases hqq : q' = q
      · subst hqq
        rw [Function.update_self, List.mem_cons, or_iff_right hx, h.free]
      · rw [Function.update_of_ne hqq, h.free]

/-- `memp_malloc` takes a free cell of its pool. -/
theorem mempMalloc (h : Reps c s place) (hm : s.mempMalloc q = some (p, s')) :
    place p = .free ∧ c.InPool q p ∧ s'.mem = s.mem ∧ s'.port = s.port ∧
      Reps c s' (update place p .off) := by
  unfold Stack.mempMalloc at hm
  cases hf : s.free q with
  | nil => rw [hf] at hm; cases hm
  | cons p' free =>
    rw [hf] at hm
    cases hm
    have hnodup : (p :: free).Nodup := hf ▸ h.nodup q
    obtain ⟨hq, hp⟩ := (h.free q p).mp (by rw [hf]; exact List.mem_cons_self)
    refine ⟨hp, hq, rfl, rfl, ⟨⟨_, h.are, fun i x => ?_⟩, fun q' => ?_, fun q' x => ?_,
      h.pool_update fun _ => Place.noConfusion⟩⟩
    · rw [h.mem_pcbs]
      by_cases hx : x = p
      · subst hx
        rw [Function.update_self]
        exact iff_of_false (fun hx => by rw [hp] at hx; cases hx) Place.noConfusion
      · rw [Function.update_of_ne hx]
    · show (update s.free q free q').Nodup
      by_cases hqq : q' = q
      · subst hqq
        rw [Function.update_self]
        exact (List.nodup_cons.mp hnodup).2
      · rw [Function.update_of_ne hqq]
        exact h.nodup q'
    · show x ∈ update s.free q free q' ↔ _
      by_cases hqq : q' = q
      · subst hqq
        rw [Function.update_self]
        by_cases hx : x = p
        · subst hx
          rw [Function.update_self]
          exact iff_of_false (List.nodup_cons.mp hnodup).1 fun h => Place.noConfusion h.2
        · rw [Function.update_of_ne hx, ← h.free q' x, hf, List.mem_cons, or_iff_right hx]
      · rw [Function.update_of_ne hqq, h.free]
        by_cases hx : x = p
        · subst hx
          rw [Function.update_self]
          exact iff_of_false (fun h' => hqq (h'.1.unique hq)) fun h => Place.noConfusion h.2
        · rw [Function.update_of_ne hx]

/-- The order of a list does not matter. -/
theorem toFront (h : Reps c s place) {k k' : List ℕ} (hk : s.pcbs c i = k ++ p :: k') :
    Reps c (s.toFront i k.getLast? p) place := by
  refine ⟨⟨_, h.are.toFront hk, fun j x => ?_⟩, h.nodup, h.free, h.pool⟩
  by_cases hj : j = i
  · subst hj
    rw [Function.update_self, ← h.mem_pcbs, hk]
    exact (List.perm_middle.mem_iff).symm
  · rw [Function.update_of_ne hj, h.mem_pcbs]

end Reps

/-- A search that finds a pcb gives its predecessor. -/
theorem findWithPrev_eq_some {test : ℕ → Bool} {prev r : Option ℕ} {l : List ℕ} {p : ℕ}
    (h : findWithPrev test prev l = some (r, p)) :
    ∃ k k', l = k ++ p :: k' ∧ r = k.getLast?.or prev ∧ test p = true := by
  induction l generalizing prev with
  | nil => cases h
  | cons x l ih =>
    unfold findWithPrev at h
    split at h
    · next hx =>
      cases h
      exact ⟨[], l, rfl, rfl, hx⟩
    · obtain ⟨k, k', rfl, hr, hp⟩ := ih h
      refine ⟨x :: k, k', rfl, ?_, hp⟩
      rw [hr]
      cases k with
      | nil => rfl
      | cons y k => simp [List.getLast?_cons]

/-- A search finds nothing if nothing matches. -/
theorem findWithPrev_eq_none {test : ℕ → Bool} {prev : Option ℕ} {l : List ℕ} :
    findWithPrev test prev l = none ↔ ∀ p ∈ l, test p = false := by
  induction l generalizing prev with
  | nil => exact iff_of_true rfl fun p hp => by cases hp
  | cons x l ih =>
    unfold findWithPrev
    rw [List.forall_mem_cons]
    split
    · next hx => exact iff_of_false (fun h => by cases h) fun h => by rw [hx] at h; cases h.1
    · next hx => rw [ih, and_iff_right (Bool.eq_false_iff.mpr hx)]

section Find

variable {c : Config} {s : Stack} {place : ℕ → Place} {p : ℕ} {i : PcbList} {test : Cell → Bool}
  {prev : Option ℕ}

/-- The pcb that a search finds. -/
theorem Reps.find (h : Reps c s place) (hf : s.find c i test = some (prev, p)) :
    place p = .on i ∧ test (s.mem p) = true ∧
      ∃ k k', s.pcbs c i = k ++ p :: k' ∧ prev = k.getLast? := by
  obtain ⟨k, k', hk, hr, ht⟩ := findWithPrev_eq_some hf
  rw [Option.or_none] at hr
  refine ⟨h.mem_pcbs.mp ?_, ht, k, k', hk, hr⟩
  rw [hk]
  exact List.mem_append_right k List.mem_cons_self

/-- A search that finds none. -/
theorem Reps.find_none (h : Reps c s place) (hf : s.find c i test = none) {x : ℕ}
    (hx : place x = .on i) : test (s.mem x) = false :=
  findWithPrev_eq_none.mp hf x (h.mem_pcbs.mpr hx)

end Find

/-! ## Moves -/

/-- The places and the contents of the cells. -/
structure Table where
  place : ℕ → Place
  mem : ℕ → Cell

/-- One cell is overwritten, and is somewhere else. -/
def Table.put (t : Table) (p : ℕ) (pl : Place) (x : Cell) : Table where
  place := update t.place p pl
  mem := update t.mem p x

/-- The ends of the connection are the same, except that the local address may have been filled
in. -/
structure SameEnds (x y : Cell) : Prop where
  remote_ip : y.remote_ip = x.remote_ip
  remote_port : y.remote_port = x.remote_port
  local_port : y.local_port = x.local_port
  local_ip : y.local_ip = x.local_ip ∨ x.local_ip = 0

/-- The two cells are of one connection: the addresses and the ports are the same. -/
def SameTuple (x y : Cell) : Prop :=
  x.local_ip = y.local_ip ∧ x.local_port = y.local_port ∧ x.remote_ip = y.remote_ip ∧
    x.remote_port = y.remote_port

instance (x y : Cell) : Decidable (SameTuple x y) := inferInstanceAs (Decidable (_ ∧ _))

/-- What the stack does to the table by itself. A pcb that goes to `TIME_WAIT` has got a segment,
and so has a local address. The new pcb that a listener accepts has the local address that the
segment was sent to, and is the only one of its connection. -/
inductive Move (t : Table) : Table → Prop where
  | alter {p : ℕ} {x : Cell} (hx : SameEnds (t.mem p) x) : Move t (t.put p (t.place p) x)
  | wait {p : ℕ} {x : Cell} (hp : t.place p = .on .active) (hx : SameEnds (t.mem p) x)
      (hany : x.local_ip ≠ 0) : Move t (t.put p (.on .tw) x)
  | drop {p : ℕ} (x : Cell) : Move t (t.put p .free x)
  | new {p : ℕ} (x : Cell) (hp : t.place p = .free) : Move t (t.put p .off x)
  | accept {p lpcb : ℕ} {x : Cell} (hp : t.place p = .off) (hl : t.place lpcb = .on .listen)
      (hport : x.local_port = (t.mem lpcb).local_port)
      (hip : (t.mem lpcb).local_ip = 0 ∨ (t.mem lpcb).local_ip = x.local_ip) (hany : x.local_ip ≠ 0)
      (hnew : ∀ y, t.place y = .on .active ∨ t.place y = .on .tw → ¬SameTuple (t.mem y) x) :
    Move t (t.put p (.on .active) x)

/-- The table of a stack. -/
def Stack.table (s : Stack) (place : ℕ → Place) : Table := ⟨place, s.mem⟩

/-- From a stack that keeps the table, some moves lead to one that does. -/
def Leads (c : Config) (s : Stack) (place : ℕ → Place) (s' : Stack) : Prop :=
  ∃ place', Keeps c s' place' ∧ Relation.ReflTransGen Move (s.table place) (s'.table place')

section Moves

variable {c : Config} {s s' s'' : Stack} {place : ℕ → Place} {p : ℕ} {i : PcbList} {x : Cell}

/-- The stack may do nothing. -/
theorem Leads.refl (h : Keeps c s place) : Leads c s place s := ⟨place, h, .refl⟩

/-- One cell is overwritten, and fits its new place. -/
theorem fits_update {mem : ℕ → Cell} (h : ∀ y, Fits c y (mem y) (place y)) {pl : Place}
    (hx : Fits c p x pl) (y : ℕ) : Fits c y (update mem p x y) (update place p pl y) := by
  by_cases hy : y = p
  · subst hy
    rw [Function.update_self, Function.update_self]
    exact hx
  · rw [Function.update_of_ne hy, Function.update_of_ne hy]
    exact h y

/-- A cell is overwritten where it is. -/
theorem Keeps.alter (h : Keeps c s place) (hx : SameEnds (s.mem p) x)
    (hfit : Fits c p x (place p)) : Leads c s place (s.setCell p x) := by
  refine ⟨update place p (place p), ⟨?_, fits_update h.fits hfit, h.range⟩, .single (.alter hx)⟩
  rw [Function.update_eq_self]
  exact h.setCell p x

/-- The stack after a pcb was freed. -/
def Freed (c : Config) (s : Stack) (place : ℕ → Place) (p : ℕ) (s' : Stack) : Prop :=
  ∃ x, Keeps c s' (update place p .free) ∧ s'.mem = update s.mem p x

/-- A pcb that is freed leads on. -/
theorem Freed.leads (h : Freed c s place p s') : Leads c s place s' := by
  obtain ⟨x, hk, hm⟩ := h
  refine ⟨_, hk, .single ?_⟩
  have heq : s'.table (update place p .free) = (s.table place).put p .free x := by
    unfold Stack.table Table.put
    rw [hm]
  rw [heq]
  exact .drop x

/-- A pcb is unlinked and freed. -/
theorem Keeps.remove (h : Keeps c s place) (hp : place p = .on i) (x : Cell) :
    Freed c s place p (((s.TCP_RMV c i p).setCell p x).mempFree i.pool p) := by
  have hrmv := ((h.toReps.rmv hp).setCell p x).mempFree (q := i.pool) (Function.update_self ..)
    (h.pool p i hp)
  rw [Function.update_idem] at hrmv
  exact ⟨x, ⟨hrmv, fits_update h.fits trivial, h.range⟩, rfl⟩

/-- A pcb that is on no list is freed. -/
theorem Keeps.remove_off (h : Keeps c s place) (hp : place p = .off) (i : PcbList) (x : Cell) :
    Freed c s place p (((s.TCP_RMV c i p).setCell p x).mempFree .TCP_PCB p) := by
  have hfit := h.fits p
  rw [hp] at hfit
  have hloose : ∀ j, place p ≠ .on j := fun j hj => by rw [hp] at hj; cases hj
  have hrmv := ((h.toReps.rmv_loose hloose i).setCell p x).mempFree hp hfit.1
  exact ⟨x, ⟨hrmv, fits_update h.fits trivial, h.range⟩, rfl⟩

end Moves

end Lwip.Pcbs
