import Lwip.Pcbs.Steps

/-!
# The victim on the lists

`tcp_kill_prio` of a stack does to its lists what the `tcp_kill_prio` of `TcpPool` does, which sees
no more of a pcb than the search for a victim reads (`tcpKillPrio_views`). So what is proved there
about the victim holds for the stack.
-/

namespace Lwip.Pcbs

open Function (update)

/-- The pool has the same pcbs on its lists as the stack. -/
structure Views (c : Config) (s : Stack) (t : TcpPool.PcbPool) : Prop where
  active : t.active.pcbs = (s.pcbs c .active).map s.aged
  tw : t.tw.pcbs = (s.pcbs c .tw).map s.aged

section Views

variable {c : Config} {s s' : Stack} {place : ℕ → Place} {p : ℕ} {i : PcbList} {t : TcpPool.PcbPool}
  {ack : Bool} {prio : UInt8}

/-- The pcbs of different lists are different. -/
theorem Reps.nodup_aged (h : Reps c s place) (i : PcbList) :
    (((s.pcbs c i).map s.aged).map (·.addr)).Nodup := by
  rw [List.map_map]
  exact (List.map_id (s.pcbs c i)).symm ▸ h.nodup_pcbs i

/-- There is a pool that the stack has. -/
theorem Reps.exists_views (h : Reps c s place) : ∃ t, Views c s t :=
  ⟨⟨⟨_, h.nodup_aged .active⟩, ⟨_, h.nodup_aged .tw⟩, []⟩, rfl, rfl⟩

/-- A list without one of its pcbs. -/
theorem Reps.pcbs_rmv (h : Reps c s place) (hp : place p = .on i) :
    (s.TCP_RMV c i p).pcbs c = update (s.pcbs c) i ((s.pcbs c i).erase p) := by
  obtain ⟨k, k', hk⟩ := List.append_of_mem (h.mem_pcbs.mpr hp)
  have hnodup := h.nodup_pcbs i
  rw [hk] at hnodup
  have hnot : p ∉ k := fun hmem =>
    (List.nodup_append.mp hnodup).2.2 p hmem p List.mem_cons_self rfl
  rw [hk, List.erase_append_right _ hnot, List.erase_cons_head]
  exact (h.rmv hp).pcbs_of_are (h.are.unlink hk (h.pcbs_length i))

/-- What the searches read, when a pcb was aborted. -/
theorem Keeps.aged_abandon (h : Keeps c s place) (hp : place p = .on i) (hi : i = .active ∨ i = .tw)
    (ha : tcpAbandon c ack p s = .ok s') :
    (s'.pcbs c i).map s'.aged = ((s.pcbs c i).map s.aged).eraseP (fun q => q.addr = p) ∧
      ∀ j, j ≠ i → (s'.pcbs c j).map s'.aged = (s.pcbs c j).map s.aged := by
  obtain ⟨x, rfl⟩ := h.abandon_eq hp hi ha
  have haged : ∀ y, y ≠ p →
      (((s.TCP_RMV c i p).setCell p x).mempFree .TCP_PCB p).aged y = s.aged y := by
    intro y hy
    have hmem : (((s.TCP_RMV c i p).setCell p x).mempFree .TCP_PCB p).mem y = s.mem y :=
      Function.update_of_ne hy ..
    unfold Stack.aged
    rw [hmem]
  have hpcbs : (((s.TCP_RMV c i p).setCell p x).mempFree .TCP_PCB p).pcbs c =
      update (s.pcbs c) i ((s.pcbs c i).erase p) := h.toReps.pcbs_rmv hp
  refine ⟨?_, fun j hj => ?_⟩
  · rw [hpcbs, Function.update_self, List.eraseP_map, List.erase_eq_eraseP']
    have hnodup := h.nodup_pcbs i
    have hother : ∀ y ∈ (s.pcbs c i).eraseP (· == p), y ≠ p := by
      intro y hy
      rw [← List.erase_eq_eraseP'] at hy
      exact ((hnodup.mem_erase_iff).mp hy).1
    rw [List.map_congr_left fun y hy => haged y (hother y hy)]
    rfl
  · rw [hpcbs, Function.update_of_ne hj]
    refine List.map_congr_left fun y hy => haged y ?_
    rintro rfl
    cases (h.mem_pcbs.mp hy).symm.trans hp
    exact hj rfl

/-- The pool after a victim was aborted. -/
theorem Views.abandon (hv : Views c s t) (h : Keeps c s place) {v : TcpPool.AgedPcb}
    (hmem : v ∈ (s.pcbs c .active).map s.aged) (ha : tcpAbandon c ack v.addr s = .ok s') :
    Views c s' { t with active := t.active.rmv v, aborted := v :: t.aborted } := by
  obtain ⟨p, hp, rfl⟩ := List.mem_map.mp hmem
  obtain ⟨hactive, hother⟩ := h.aged_abandon (h.mem_pcbs.mp hp) (.inl rfl) ha
  have hlist : (t.active.rmv (s.aged p)).pcbs = (s'.pcbs c .active).map s'.aged := by
    rw [hactive, ← hv.active]
    rfl
  exact ⟨hlist, hv.tw.trans (hother .tw (by decide)).symm⟩

/-- To kill a pcb of low priority does the same to the stack and to its pool. -/
theorem tcpKillPrio_views (h : Keeps c s place) (hk : tcpKillPrio c ack prio s = .ok s') :
    ∃ t, Views c s t ∧ Views c s' (TcpPool.tcpKillPrio s.ticks prio t) := by
  obtain ⟨t, hv⟩ := h.toReps.exists_views
  refine ⟨t, hv, ?_⟩
  unfold tcpKillPrio at hk
  unfold TcpPool.tcpKillPrio
  rw [hv.active]
  cases hscan :
    (((s.pcbs c .active).map s.aged).foldl (TcpPool.killPrioBody s.ticks prio) {}).inactive with
  | some v =>
    rw [hscan] at hk
    obtain hmem | hnone := killPrio_mem hscan
    · exact hv.abandon h hmem hk
    · cases hnone
  | none =>
    rw [hscan] at hk
    cases hk
    exact hv

end Views

end Lwip.Pcbs
