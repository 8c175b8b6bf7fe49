import Lwip.Dhcp.Waiting

/-!
# Leases

What an ACK gives (`Lease.ofAck`), with the defaults for the options that it lacks, and when the
timers of a lease are due (`ticks`). The interface and the client take over the lease of the ACK for
which `dhcp_bind` runs (`Adopted`), and a coarse tick calls the timeouts when they are due
(`OnTime`), in the runs in which no ACK and no tick meets one of the slips of the code
(`LeaseFits`):

* an ACK that answers a request to renew, to rebind or to reboot is not read;
* without a lease time, the one of the former lease is used;
* the default mask is not that of the address, and 0.0.0.0 in a reply counts as an absent option;
* the rounding overflows, and a timer that is off still counts down, and wraps around.
-/

namespace Lwip.Dhcp

/-- What a lease sets. -/
structure Lease where
  ip_addr : BitVec 32
  netmask : BitVec 32
  gw : BitVec 32
  t1 : ℕ
  t2 : ℕ
  deriving DecidableEq, Repr

/-- The lease that an ACK gives. -/
def Lease.ofAck (ack : Ack) : Lease :=
  let netmask := ack.mask.elim (classMask (ip4Addr1 ack.yiaddr)) (BitVec.ofNat 32)
  let lease := ack.lease.getD 0
  { ip_addr := ack.yiaddr
    netmask
    gw := ack.router.elim (ack.yiaddr &&& netmask ||| 1) (BitVec.ofNat 32)
    t1 := ack.t1.getD (lease / 2)
    t2 := ack.t2.getD lease }

/-- The coarse tick at which a period ends, rounded to the next one. -/
def ticks (period : ℕ) : ℕ :=
  max 1 (min 65535 ((period + DHCP_COARSE_TIMER_SECS / 2) / DHCP_COARSE_TIMER_SECS))

/-- The timeouts of a lease do not fall on one tick. -/
def Lease.Separate (l : Lease) : Prop := l.t1 < l.t2 ∧ (l.t2 ≠ infinite → ticks l.t1 ≠ ticks l.t2)

instance (l : Lease) : Decidable l.Separate := inferInstanceAs (Decidable (_ ∧ _))

/-- The timeout `called` by the `n`-th tick of a lease is the one that is due. -/
def Lease.Due (l : Lease) (n : ℕ) (called : Option Timer) : Prop :=
  (l.t1 = infinite → called ≠ some .t1) ∧ (l.t2 = infinite → called ≠ some .t2) ∧
    (l.Separate →
      (called = some .t1 ↔ n = ticks l.t1) ∧
      (l.t2 ≠ infinite → (called = some .t2 ↔ n = ticks l.t2)))

instance (l : Lease) (n : ℕ) (called : Option Timer) : Decidable (l.Due n called) :=
  inferInstanceAs (Decidable (_ ∧ _ ∧ (_ → _ ∧ (_ → _))))

/-- The interface and the client have the lease. -/
def Client.Has (c : Client) (l : Lease) : Prop :=
  c.netif.ip_addr = l.ip_addr ∧ c.netif.netmask = l.netmask ∧ c.netif.gw = l.gw ∧
    c.dhcp.offered_t1_renew = l.t1 ∧ c.dhcp.offered_t2_rebind = l.t2

instance (c : Client) (l : Lease) : Decidable (c.Has l) := inferInstanceAs (Decidable (_ ∧ _))

/-- A client that is bound has the lease of the ACK for which it was bound. -/
def Adopted (s : Sys) : Prop :=
  ∀ c ∈ s.client, (c.dhcp.state = .BOUND → c.dhcp.bound.isSome = true) ∧
    ∀ b ∈ c.dhcp.bound, c.Has (.ofAck b.1)

instance (s : Sys) : Decidable (Adopted s) := inferInstanceAs (Decidable (∀ _ ∈ _, _ ∧ _))

/-- A coarse tick calls the timeout that is due. -/
def OnTime (s : Sys) : Event → Prop
  | .dhcp_coarse_tmr alloc => ∀ c ∈ s.client, ∀ b ∈ c.dhcp.bound,
      (Lease.ofAck b.1).Due (b.2 + 1) (dhcpCoarseTmr alloc c).2
  | _ => True

/-! ## The conditions -/

/-- With the lease time that is stored from before, and its options, an ACK gives its lease. -/
def Ack.Fits (ack : Ack) (d : Dhcp) : Prop :=
  (ack.lease = none → (ack.t1 = none → d.offered_t0_lease < 2) ∧
    (ack.t2 = none → d.offered_t0_lease = 0)) ∧
    (∀ m ∈ ack.mask, BitVec.ofNat 32 m ≠ 0) ∧ (∀ g ∈ ack.router, BitVec.ofNat 32 g ≠ 0) ∧
    (ack.mask = none → ip4Addr1 ack.yiaddr ≤ 127)

instance (ack : Ack) (d : Dhcp) : Decidable (ack.Fits d) := inferInstanceAs
    (Decidable (_ ∧ _ ∧ _ ∧ _))

set_option linter.dupNamespace false in
/-- What is stored from a former offer is this lease. -/
def Dhcp.Keeps (d : Dhcp) (l : Lease) : Prop :=
  d.offered_ip_addr = l.ip_addr ∧
    (if d.offered_sn_mask = 0 then classMask 0 else d.offered_sn_mask) = l.netmask ∧
    (if d.offered_gw_addr = 0 then l.ip_addr &&& l.netmask ||| 1 else d.offered_gw_addr) = l.gw ∧
    d.offered_t1_renew = l.t1 ∧ d.offered_t2_rebind = l.t2

instance (d : Dhcp) (l : Lease) : Decidable (d.Keeps l) := inferInstanceAs (Decidable (_ ∧ _))

set_option linter.dupNamespace false in
/-- No timer runs on for a period that does not end. -/
def Dhcp.Idle (d : Dhcp) (l : Lease) : Prop :=
  (l.t1 = infinite → d.t1_timeout = 0) ∧ (l.t2 = infinite → d.t2_timeout = 0)

instance (d : Dhcp) (l : Lease) : Decidable (d.Idle l) := inferInstanceAs (Decidable (_ ∧ _))

/-- The timers do not wrap around at tick `n`, and the rounding did not overflow. -/
def Lease.Runs (l : Lease) (n : ℕ) : Prop :=
  (l.t2 = infinite → n < 2^16) ∧ (l.t1 = infinite → n < 2^16 + if l.t2 = infinite then 0 else 1) ∧
    (l.Separate → l.t1 + 30 < 2^32 ∧ (l.t2 ≠ infinite → l.t2 + 30 < 2^32 ∧ n ≤ 2^16 + ticks l.t1))

instance (l : Lease) (n : ℕ) : Decidable (l.Runs n) := inferInstanceAs (Decidable (_ ∧ _ ∧ (_ → _)))

/-- The events at which the client does right by its leases. -/
def LeaseFits (o : Opts) (s : Sys) : Event → Prop
  | .dhcp_recv m _ => ∀ c ∈ s.client, m.isReply c = true → ∀ r ∈ m.reply,
      optionByte r DHCP_OPTION_MESSAGE_TYPE = some (some DHCP_ACK) →
        (c.dhcp.state = .REQUESTING → ∀ ack ∈ readAck r,
          ack.Fits c.dhcp ∧ (o.DHCP_DOES_ARP_CHECK = false → c.dhcp.Idle (.ofAck ack))) ∧
        (c.dhcp.state.reacquires = true → ∃ ack ∈ readAck r,
          c.dhcp.Keeps (.ofAck ack) ∧ c.dhcp.Idle (.ofAck ack))
  | .dhcp_fine_tmr _ _ => ∀ c ∈ s.client,
      c.dhcp.request_timeout = 1 → c.dhcp.state = .CHECKING → c.dhcp.tries > 1 →
        ∀ ack ∈ c.dhcp.acked, c.dhcp.Idle (.ofAck ack)
  | .dhcp_coarse_tmr _ => ∀ c ∈ s.client, ∀ b ∈ c.dhcp.bound, (Lease.ofAck b.1).Runs (b.2 + 1)
  | _ => True

/-! ## The counters -/

/-- What `dhcp_bind` counts down from; a counter that is at 0 wraps around. -/
def counter (period : ℕ) : ℕ := if period = infinite then 2^16 else coarseTicks period

/-- How often a counter that starts at `n` has run out after `k` ticks. -/
def fired (n k : ℕ) : ℕ := (k + 2^16 - n) / 2^16

/-- The counters after `k` ticks; at a tick of the second timer the first one does not count. -/
def Counts (d : Dhcp) (n₁ n₂ k : ℕ) : Prop :=
  d.t1_timeout < 2^16 ∧ d.t2_timeout < 2^16 ∧ (d.t2_timeout + k) % 2^16 = n₂ % 2^16 ∧
    (d.t1_timeout + k) % 2^16 = (n₁ + fired n₂ k) % 2^16

/-- A period is one tick at least, and a 16-bit value. -/
theorem coarseTicks_bounds (period : ℕ) : 1 ≤ coarseTicks period ∧ coarseTicks period < 2^16 := by
  unfold coarseTicks
  dsimp only
  generalize (period + DHCP_COARSE_TIMER_SECS / 2) % 2^32 / DHCP_COARSE_TIMER_SECS = t
  split <;> split <;> omega

/-- The rounded period, where the rounding does not overflow. -/
theorem coarseTicks_eq {period : ℕ} (h : period + 30 < 2^32) :
    coarseTicks period = ticks period := by
  unfold coarseTicks ticks DHCP_COARSE_TIMER_SECS
  dsimp only
  rw [Nat.mod_eq_of_lt h]
  generalize (period + 60 / 2) / 60 = t
  split <;> split <;> omega

/-- A counter runs for one tick at least. -/
theorem counter_bounds (period : ℕ) : 1 ≤ counter period ∧ counter period ≤ 2^16 := by
  unfold counter
  have := coarseTicks_bounds period
  split <;> omega

/-- A counter that has not run out. -/
theorem fired_zero {n k : ℕ} (h : k < n) : fired n k = 0 := by
  unfold fired
  omega

/-- A counter runs out once in its first round. -/
theorem fired_cases {n k : ℕ} (h : k < n + 2^16) :
    (k < n ∧ fired n k = 0) ∨ (n ≤ k ∧ fired n k = 1) := by
  unfold fired
  omega

/-- A tick that lets the second counter run out. -/
theorem Counts.tick_t2 {d : Dhcp} {n₁ n₂ k : ℕ} (h : Counts d n₁ n₂ k) (hn : 1 ≤ n₂)
    (hn' : n₂ ≤ 2^16) (ht : d.t2_timeout = 1) {d' : Dhcp} (h₁ : d'.t1_timeout = d.t1_timeout)
    (h₂ : d'.t2_timeout = u16sub d.t2_timeout 1) : Counts d' n₁ n₂ (k + 1) := by
  obtain ⟨hlt₁, hlt₂, hc₂, hc₁⟩ := h
  -- The second counter has run out once more.
  have hfired : fired n₂ (k + 1) = fired n₂ k + 1 := by
    unfold fired
    omega
  unfold Counts
  rw [h₁, h₂, hfired, ht]
  unfold u16sub
  omega

/-- Any other tick. -/
theorem Counts.tick {d : Dhcp} {n₁ n₂ k : ℕ} (h : Counts d n₁ n₂ k) (hn : 1 ≤ n₂) (hn' : n₂ ≤ 2^16)
    (ht : d.t2_timeout ≠ 1) {d' : Dhcp} (h₁ : d'.t1_timeout = u16sub d.t1_timeout 1)
    (h₂ : d'.t2_timeout = u16sub d.t2_timeout 1) : Counts d' n₁ n₂ (k + 1) := by
  obtain ⟨hlt₁, hlt₂, hc₂, hc₁⟩ := h
  have hfired : fired n₂ (k + 1) = fired n₂ k := by
    unfold fired
    omega
  unfold Counts
  rw [h₁, h₂, hfired]
  unfold u16sub
  omega

/-- Which timeout a coarse tick calls. -/
theorem dhcpCoarseTmr_called (alloc : Bool) (c : Client) :
    (dhcpCoarseTmr alloc c).2 =
      if c.dhcp.t2_timeout = 1 then some .t2 else if c.dhcp.t1_timeout = 1 then some .t1
      else none := by
  unfold dhcpCoarseTmr
  dsimp only
  split
  · rfl
  split <;> rfl

/-- A longer period is due later. -/
theorem ticks_mono {t t' : ℕ} (h : t ≤ t') : ticks t ≤ ticks t' := by
  unfold ticks DHCP_COARSE_TIMER_SECS
  have := Nat.div_le_div_right (c := 60) (Nat.add_le_add_right h (60 / 2))
  omega

/-- The counter of a period is its ticks. -/
theorem counter_of_ne {period : ℕ} (h : period ≠ infinite) (hlt : period + 30 < 2^32) :
    counter period = ticks period := by
  rw [counter, if_neg h, coarseTicks_eq hlt]

/-- A counter that runs is a 16-bit value. -/
theorem counter_lt {period : ℕ} (h : period ≠ infinite) : counter period < 2^16 := by
  rw [counter, if_neg h]
  exact (coarseTicks_bounds period).2

/-- From counters that are right follows that the timeouts are called when they are due. -/
theorem Counts.due {alloc : Bool} {c : Client} {l : Lease} {k : ℕ}
    (h : Counts c.dhcp (counter l.t1) (counter l.t2) k) (hruns : l.Runs (k + 1)) :
    l.Due (k + 1) (dhcpCoarseTmr alloc c).2 := by
  obtain ⟨hlt₁, hlt₂, hc₂, hc₁⟩ := h
  obtain ⟨hinf₂, hinf₁, hsep⟩ := hruns
  have hb₁ := counter_bounds l.t1
  have hb₂ := counter_bounds l.t2
  have hinf : ∀ t, t = infinite → counter t = 2^16 := fun t ht => if_pos ht
  -- What the tick calls, by the counters.
  have ht₂ : (dhcpCoarseTmr alloc c).2 = some .t2 ↔ c.dhcp.t2_timeout = 1 := by
    rw [dhcpCoarseTmr_called]
    split <;> [skip; split] <;> simp_all
  have ht₁ : (dhcpCoarseTmr alloc c).2 = some .t1 ↔ c.dhcp.t2_timeout ≠ 1 ∧
      c.dhcp.t1_timeout = 1 := by
    rw [dhcpCoarseTmr_called]
    split <;> [skip; split] <;> simp_all
  refine ⟨fun hi hcall => ?_, fun hi hcall => ?_, fun hs => ?_⟩
  · obtain ⟨hne, hone⟩ := ht₁.mp hcall
    have hn := hinf _ hi
    have hk := hinf₁ hi
    by_cases hi₂ : l.t2 = infinite
    · rw [if_pos hi₂] at hk
      have hn₂ := hinf _ hi₂
      have hf : fired (counter l.t2) k = 0 := fired_zero (by omega)
      omega
    · rw [if_neg hi₂] at hk
      have hlt := counter_lt hi₂
      -- The first counter is late by one tick if the second one has run out.
      obtain ⟨hlt, hf⟩ | ⟨hle, hf⟩ := fired_cases (by omega : k < counter l.t2 + 2^16) <;> omega
  · have hone := ht₂.mp hcall
    have hn := hinf _ hi
    have hk := hinf₂ hi
    omega
  · obtain ⟨hover₁, hfin⟩ := hsep hs
    have hfin₁ : l.t1 ≠ infinite := by
      unfold infinite
      omega
    have hn₁ := counter_of_ne hfin₁ hover₁
    have hlt := counter_lt hfin₁
    rw [ht₁, ht₂]
    by_cases hi : l.t2 = infinite
    · have hn₂ := hinf _ hi
      have hk := hinf₂ hi
      have hf : fired (counter l.t2) k = 0 := fired_zero (by omega)
      refine ⟨?_, fun hne => absurd hi hne⟩
      omega
    · obtain ⟨hover₂, hk⟩ := hfin hi
      have hn₂ := counter_of_ne hi hover₂
      have hlt₂ := counter_lt hi
      have hlt : ticks l.t1 < ticks l.t2 :=
        Nat.lt_of_le_of_ne (ticks_mono (Nat.le_of_lt hs.1)) (hs.2 hi)
      refine ⟨?_, fun _ => ?_⟩
      · obtain ⟨hlt, hf⟩ | ⟨hle, hf⟩ := fired_cases (by omega : k < counter l.t2 + 2^16) <;> omega
      · omega

/-! ## The invariant -/

/-- The states in which a client may have a lease. -/
def State.leases : State → Bool
  | .BOUND | .RENEWING | .REBINDING | .REBOOTING => true
  | _ => false

/-- A client that checks an address has stored the lease of the ACK, a client that is bound has
taken it over, and its counters tell the ticks since then. -/
structure Client.Leased (c : Client) : Prop where
  unbound : c.dhcp.state.leases = false → c.dhcp.bound = none
  checking : c.dhcp.state = .CHECKING → ∃ ack, c.dhcp.acked = some ack ∧ c.dhcp.Keeps (.ofAck ack)
  isSome : c.dhcp.state = .BOUND → c.dhcp.bound.isSome = true
  has : ∀ b ∈ c.dhcp.bound, c.Has (.ofAck b.1)
  counts : ∀ b ∈ c.dhcp.bound,
    Counts c.dhcp (counter (Lease.ofAck b.1).t1) (counter (Lease.ofAck b.1).t2) b.2

/-- Without a lease there is nothing to show. -/
theorem Client.Leased.of_none {c : Client} (h : c.dhcp.bound = none)
    (hchk : c.dhcp.state ≠ .CHECKING) (hbound : c.dhcp.state ≠ .BOUND) : c.Leased where
  unbound _ := h
  checking hst := absurd hst hchk
  isSome hst := absurd hst hbound
  has b hb := by
    rw [h] at hb
    cases hb
  counts b hb := by
    rw [h] at hb
    cases hb

section Requests

variable {alloc : Bool} {c : Client}

/-- A state change resets the tries at most. -/
theorem dhcpSetState_eq (d : Dhcp) (state : State) :
    ∃ tries, dhcpSetState d state = { d with state, tries } := by
  unfold dhcpSetState
  split
  · exact ⟨0, rfl⟩
  · next h =>
    obtain rfl := not_not.mp h
    exact ⟨d.tries, rfl⟩

/-- A request touches the numbers of its transaction, the tries and the timeout. -/
theorem request_eq (msecs : ℕ → ℕ) (alloc : Bool) (c : Client) :
    ∃ xid xid' tries request_timeout, (request msecs alloc c).1 =
      { c with xid, dhcp := { c.dhcp with xid := xid', tries, request_timeout } } := by
  unfold request dhcpCreateRequest
  split
  · exact ⟨_, _, _, _, rfl⟩
  · exact ⟨_, _, _, _, rfl⟩

/-- A request changes these fields only. -/
theorem requestIn_eq (state : State) (msecs : ℕ → ℕ) (alloc : Bool) (c : Client) :
    ∃ xid xid' tries request_timeout, (requestIn state msecs alloc c).1 =
      { c with xid, dhcp := { c.dhcp with xid := xid', state, tries, request_timeout } } := by
  obtain ⟨tries, hst⟩ := dhcpSetState_eq c.dhcp state
  obtain ⟨xid, xid', tries', t, heq⟩ :=
    request_eq msecs alloc { c with dhcp := { c.dhcp with state, tries } }
  refine ⟨xid, xid', tries', t, ?_⟩
  rw [requestIn, hst, heq]

/-- Without a lease, a request keeps the invariant. -/
theorem requestIn_unleased {state : State} {msecs : ℕ → ℕ} (h : c.dhcp.bound = none)
    (hchk : state ≠ .CHECKING) (hbound : state ≠ .BOUND) :
    (requestIn state msecs alloc c).1.Leased := by
  obtain ⟨xid, xid', tries, t, heq⟩ := requestIn_eq state msecs alloc c
  rw [heq]
  exact .of_none h hchk hbound

/-- A request for the address of a lease keeps it. -/
theorem Client.Leased.request (h : c.Leased) {state : State} {msecs : ℕ → ℕ}
    (hst : state.leases = true)
    (hbound : state ≠ .BOUND) : (requestIn state msecs alloc c).1.Leased := by
  obtain ⟨xid, xid', tries, t, heq⟩ := requestIn_eq state msecs alloc c
  rw [heq]
  refine ⟨fun hno => ?_, fun hchk => ?_, fun hb => absurd hb hbound, h.has, h.counts⟩
  · rw [hst] at hno
    cases hno
  · change state = .CHECKING at hchk
    rw [hchk] at hst
    cases hst

/-- Discovery starts without a lease. -/
theorem dhcpDiscover_leased : (dhcpDiscover alloc c).1.Leased :=
  requestIn_unleased rfl (by decide) (by decide)

/-- The counters at the start of a lease. -/
theorem counts_zero {d : Dhcp} {l : Lease} (hidle : d.Idle l) {d' : Dhcp}
    (h₁ : d'.t1_timeout = if l.t1 ≠ infinite then coarseTicks l.t1 else d.t1_timeout)
    (h₂ : d'.t2_timeout = if l.t2 ≠ infinite then coarseTicks l.t2 else d.t2_timeout) :
    Counts d' (counter l.t1) (counter l.t2) 0 := by
  have start : ∀ {t timeout v : ℕ}, (t = infinite → timeout = 0) →
      (v = if t ≠ infinite then coarseTicks t else timeout) → v < 2^16 ∧
      v % 2^16 = counter t % 2^16 := by
    intro t timeout v hzero hv
    unfold counter
    by_cases ht : t = infinite
    · rw [if_neg (not_not.mpr ht), hzero ht] at hv
      rw [if_pos ht, hv]
      decide
    · rw [if_pos ht] at hv
      rw [if_neg ht, hv]
      exact ⟨(coarseTicks_bounds t).2, rfl⟩
  obtain ⟨hlt₁, hmod₁⟩ := start hidle.1 h₁
  obtain ⟨hlt₂, hmod₂⟩ := start hidle.2 h₂
  have hf : fired (counter l.t2) 0 = 0 := fired_zero (counter_bounds l.t2).1
  exact ⟨hlt₁, hlt₂, hmod₂, by rw [hf]; exact hmod₁⟩

/-- A client that was just bound has its lease. -/
theorem bound_leased {n : Netif} {xid : BitVec 32} {d : Dhcp} {ack : Ack}
    (hb : d.bound = some (ack, 0)) (hhas : Client.Has ⟨n, xid, d⟩ (.ofAck ack))
    (hcounts : Counts d (counter (Lease.ofAck ack).t1) (counter (Lease.ofAck ack).t2) 0) :
    Client.Leased ⟨n, xid, dhcpSetState d .BOUND⟩ := by
  obtain ⟨tries, hset⟩ := dhcpSetState_eq d .BOUND
  rw [hset]
  refine ⟨nofun, nofun, fun _ => ?_, fun b hb' => ?_, fun b hb' => ?_⟩
  · show d.bound.isSome = true
    rw [hb]
    rfl
  · obtain rfl : (ack, 0) = b := Option.some.inj (hb.symm.trans hb')
    exact hhas
  · obtain rfl : (ack, 0) = b := Option.some.inj (hb.symm.trans hb')
    exact hcounts

/-- A client that has stored the lease of an ACK is bound to it. -/
theorem dhcpBind_leased {ack : Ack} (hack : c.dhcp.acked = some ack)
    (hkeeps : c.dhcp.Keeps (.ofAck ack))
    (hidle : c.dhcp.Idle (.ofAck ack)) : (dhcpBind c).Leased := by
  obtain ⟨hip, hmask, hgw, ht₁, ht₂⟩ := hkeeps
  have hmask' : (if c.dhcp.offered_sn_mask = 0 then classMask (ip4Addr1 c.dhcp.offered_sn_mask)
      else c.dhcp.offered_sn_mask) = (Lease.ofAck ack).netmask := by
    rw [← hmask]
    split
    · next hzero =>
      rw [hzero]
      rfl
    · rfl
  apply bound_leased
  · rw [hack]
    rfl
  · refine ⟨hip, hmask', ?_, ht₁, ht₂⟩
    rw [← hgw, ← hip, ← hmask']
  · apply counts_zero hidle
    · rw [← ht₁]
    · rw [← ht₂]

end Requests

section Events

variable {o : Opts} {alloc alloc' : Bool} {c : Client}

/-- With its options and the lease time from before, an ACK is stored as its lease. -/
theorem dhcpHandleAck_keeps {ack : Ack} {d : Dhcp} (h : ack.Fits d) :
    (dhcpHandleAck ack d).Keeps (.ofAck ack) := by
  obtain ⟨hlease, hmask, hrouter, hclass⟩ := h
  have hnetmask : (if optionAddr ack.mask = 0 then classMask 0 else optionAddr ack.mask) =
      (Lease.ofAck ack).netmask := by
    unfold Lease.ofAck optionAddr
    cases hm : ack.mask with
    | none => exact (if_pos (hclass hm)).symm
    | some m => exact if_neg (hmask m hm)
  have hgw : (if optionAddr ack.router = 0 then ack.yiaddr &&& (Lease.ofAck ack).netmask ||| 1
      else optionAddr ack.router) = (Lease.ofAck ack).gw := by
    unfold Lease.ofAck optionAddr
    cases hr : ack.router with
    | none => rfl
    | some g => exact if_neg (hrouter g hr)
  refine ⟨rfl, hnetmask, hgw, ?_, ?_⟩
  · show ack.t1.getD (ack.lease.getD d.offered_t0_lease / 2) = ack.t1.getD (ack.lease.getD 0 / 2)
    cases hl : ack.lease with
    | some lease => rfl
    | none =>
      cases ht : ack.t1 with
      | some t1 => rfl
      | none => exact Nat.div_eq_of_lt ((hlease hl).1 ht)
  · show ack.t2.getD (ack.lease.getD d.offered_t0_lease) = ack.t2.getD (ack.lease.getD 0)
    cases hl : ack.lease with
    | some lease => rfl
    | none =>
      cases ht : ack.t2 with
      | some t2 => rfl
      | none => exact (hlease hl).2 ht

/-- The check of an address leaves the lease. -/
theorem dhcpCheck_leased {ack : Ack} (hnone : c.dhcp.bound = none) (hack : c.dhcp.acked = some ack)
    (hkeeps : c.dhcp.Keeps (.ofAck ack)) : (dhcpCheck c).Leased := by
  obtain ⟨tries, hset⟩ := dhcpSetState_eq c.dhcp .CHECKING
  unfold dhcpCheck
  rw [hset]
  refine ⟨fun _ => hnone, fun _ => ⟨ack, hack, hkeeps⟩, nofun, fun b hb => ?_, fun b hb => ?_⟩
  · rw [hnone] at hb
    cases hb
  · rw [hnone] at hb
    cases hb

/-- An ACK gives its lease. -/
theorem dhcpRecvAck_leased {r : Reply} {c' : Client} (hl : c.Leased)
    (hreq : c.dhcp.state = .REQUESTING → ∀ ack ∈ readAck r,
      ack.Fits c.dhcp ∧ (o.DHCP_DOES_ARP_CHECK = false → c.dhcp.Idle (.ofAck ack)))
    (hacq : c.dhcp.state.reacquires = true → ∃ ack ∈ readAck r,
      c.dhcp.Keeps (.ofAck ack) ∧ c.dhcp.Idle (.ofAck ack))
    (h : dhcpRecvAck o r c = .ok c') : c'.Leased := by
  unfold dhcpRecvAck at h
  split at h
  · next hst =>
    obtain ⟨ack, hack, h⟩ := bind_eq_ok.mp h
    obtain ⟨hfits, hidle⟩ := hreq hst ack (inMemory_eq_ok.mp hack)
    have hnone := hl.unbound (by rw [hst]; rfl)
    dsimp only at h
    split at h
    · cases h
      exact dhcpCheck_leased hnone rfl (dhcpHandleAck_keeps hfits)
    · next harp =>
      cases h
      exact dhcpBind_leased rfl (dhcpHandleAck_keeps hfits) (hidle (by simpa using harp))
  split at h
  · next hst =>
    -- The fields of a former ACK are kept, and this one has to give the same lease.
    obtain ⟨ack, hack, hkeeps, hidle⟩ := hacq hst
    cases h
    exact dhcpBind_leased hack hkeeps hidle
  · cases h
    exact hl

/-- A timeout keeps the lease. -/
theorem dhcpTimeout_leased (hl : c.Leased)
    (hidle : c.dhcp.state = .CHECKING → c.dhcp.tries > 1 → ∀ ack ∈ c.dhcp.acked,
    c.dhcp.Idle (.ofAck ack)) : (dhcpTimeout o alloc alloc' c).Leased := by
  unfold dhcpTimeout
  split
  · exact dhcpDiscover_leased
  · exact dhcpDiscover_leased
  · next hst =>
    split
    · exact requestIn_unleased (hl.unbound (by rw [hst]; rfl)) (by decide) (by decide)
    · exact dhcpDiscover_leased
  · next hst =>
    obtain ⟨ack, hack, hkeeps⟩ := hl.checking hst
    split
    · exact hl
    split
    · exact dhcpCheck_leased (hl.unbound (by rw [hst]; rfl)) hack hkeeps
    · next hgt => exact dhcpBind_leased hack hkeeps (hidle hst (Nat.lt_of_not_le hgt) ack hack)
  · exact hl.request rfl (by decide)
  · split
    · exact hl.request rfl (by decide)
    · exact dhcpDiscover_leased
  · split
    · exact hl.request rfl (by decide)
    · exact dhcpDiscover_leased
  all_goals exact hl

/-- A fine tick keeps the lease. -/
theorem dhcpFineTmr_leased (hl : c.Leased)
    (hidle : c.dhcp.request_timeout = 1 → c.dhcp.state = .CHECKING → c.dhcp.tries > 1 →
      ∀ ack ∈ c.dhcp.acked, c.dhcp.Idle (.ofAck ack)) :
    (dhcpFineTmr o alloc alloc' c).Leased := by
  unfold dhcpFineTmr
  split
  · exact ⟨hl.unbound, hl.checking, hl.isSome, hl.has, hl.counts⟩
  split
  · next hone =>
    refine dhcpTimeout_leased ?_ (hidle hone)
    exact ⟨hl.unbound, hl.checking, hl.isSome, hl.has, hl.counts⟩
  · exact hl

/-- A tick is counted for the lease. -/
theorem Client.Leased.tick (hl : c.Leased) (t₁ t₂ : ℕ)
    (h : ∀ n₁ n₂ k, 1 ≤ n₂ → n₂ ≤ 2^16 → Counts c.dhcp n₁ n₂ k →
      Counts { c.dhcp with t1_timeout := t₁, t2_timeout := t₂ } n₁ n₂ (k + 1)) :
    Client.Leased { c with dhcp := { c.dhcp with
      bound := c.dhcp.bound.map fun (ack, ticks) => (ack, ticks + 1)
      t1_timeout := t₁, t2_timeout := t₂ } } := by
  refine ⟨fun hst => ?_, hl.checking, fun hst => ?_, fun b hb => ?_, fun b hb => ?_⟩
  · show c.dhcp.bound.map _ = none
    rw [hl.unbound hst]
    rfl
  · show (c.dhcp.bound.map _).isSome = true
    rw [Option.isSome_map]
    exact hl.isSome hst
  · obtain ⟨b', hb', rfl⟩ := Option.map_eq_some_iff.mp hb
    exact hl.has b' hb'
  · obtain ⟨b', hb', rfl⟩ := Option.map_eq_some_iff.mp hb
    obtain ⟨hpos, hle⟩ := counter_bounds (Lease.ofAck b'.1).t2
    exact h _ _ _ hpos hle (hl.counts b' hb')

/-- A coarse tick keeps the lease. -/
theorem dhcpCoarseTmr_leased (hl : c.Leased) : (dhcpCoarseTmr alloc c).1.Leased := by
  unfold dhcpCoarseTmr
  dsimp only
  split
  · next hone =>
    have hl' := hl.tick c.dhcp.t1_timeout (u16sub c.dhcp.t2_timeout 1)
      fun n₁ n₂ k hpos hle hc => hc.tick_t2 hpos hle hone rfl rfl
    unfold dhcpT2Timeout
    split
    · exact hl'.request rfl (by decide)
    · exact hl'
  · next hne =>
    have hl' := hl.tick (u16sub c.dhcp.t1_timeout 1) (u16sub c.dhcp.t2_timeout 1)
      fun n₁ n₂ k hpos hle hc => hc.tick hpos hle hne rfl rfl
    split
    · unfold dhcpT1Timeout
      split
      · exact hl'.request rfl (by decide)
      · exact hl'
    · exact hl'

/-- An ARP reply keeps the lease, or gives it up. -/
theorem dhcpArpReply_leased {addr : BitVec 32} (hl : c.Leased) :
    (dhcpArpReply o addr alloc c).Leased := by
  unfold dhcpArpReply
  split
  · next hcond =>
    exact requestIn_unleased (hl.unbound (by rw [hcond.2.1]; rfl)) (by decide) (by decide)
  · exact hl

/-- A network change keeps the lease, or gives it up. -/
theorem dhcpNetworkChanged_leased (hl : c.Leased) : (dhcpNetworkChanged alloc c).Leased := by
  have hdown : Client.Leased { c with
      netif := { c.netif with up := false }, dhcp := { c.dhcp with tries := 0 } } :=
    ⟨hl.unbound, hl.checking, hl.isSome, hl.has, hl.counts⟩
  unfold dhcpNetworkChanged
  split
  iterate 4 exact hdown.request rfl (by decide)
  · exact hl
  · exact dhcpDiscover_leased

end Events

instance (o : Opts) (s : Sys) : (e : Event) → Decidable (LeaseFits o s e)
  | .dhcp_recv m _ =>
    inferInstanceAs (Decidable (∀ c ∈ s.client, m.isReply c = true → ∀ r ∈ m.reply, _ → _ ∧ _))
  | .dhcp_fine_tmr _ _ => inferInstanceAs (Decidable (∀ c ∈ s.client, _ → _ → _ → _))
  | .dhcp_coarse_tmr _ => inferInstanceAs (Decidable (∀ c ∈ s.client, ∀ b ∈ c.dhcp.bound, _))
  | .dhcp_start _ _ _ | .dhcp_arp_reply _ _ | .dhcp_network_changed _ =>
    inferInstanceAs (Decidable True)

instance (s : Sys) : (e : Event) → Decidable (OnTime s e)
  | .dhcp_coarse_tmr _ => inferInstanceAs (Decidable (∀ c ∈ s.client, ∀ b ∈ c.dhcp.bound, _))
  | .dhcp_recv _ _ | .dhcp_fine_tmr _ _ | .dhcp_start _ _ _ | .dhcp_arp_reply _ _
  | .dhcp_network_changed _ => inferInstanceAs (Decidable True)

/-- The invariant of an interface. -/
def Sys.Leased (s : Sys) : Prop := ∀ c ∈ s.client, c.Leased

/-- Every event keeps the lease. -/
theorem step_leased {o : Opts} {s s' : Sys} {e : Event} (h : s.Leased) (hfits : LeaseFits o s e)
    (hs : step o s e = .ok s') : s'.Leased := by
  obtain ⟨clientAlloc, pcb, alloc, rfl⟩ | rfl | ⟨c, c', hc, hc', rfl⟩ := step_cases hs
  · intro c hc
    obtain hc | rfl := dhcpStart_client hc
    · exact h c hc
    · exact dhcpDiscover_leased
  · exact h
  · have hl := h c hc
    intro c'' hc''
    cases hc''
    cases e with
    | dhcp_start clientAlloc pcb alloc =>
      cases hc'
      exact hl
    | dhcp_recv m alloc =>
      obtain rfl | ⟨hreply, r, hr, htype, hack⟩ | rfl | ⟨-, hst, r, -, server, yiaddr, -, -, rfl⟩ :=
        dhcpRecv_cases hc'
      · exact hl
      · obtain ⟨hreq, hacq⟩ := hfits c hc hreply r hr htype
        exact dhcpRecvAck_leased hl hreq hacq hack
      · exact dhcpDiscover_leased
      · unfold dhcpHandleOffer
        cases server with
        | none => exact ⟨hl.unbound, hl.checking, hl.isSome, hl.has, hl.counts⟩
        | some server =>
          exact requestIn_unleased (hl.unbound (by rw [hst]; rfl)) (by decide) (by decide)
    | dhcp_fine_tmr alloc alloc' =>
      cases hc'
      exact dhcpFineTmr_leased hl (hfits c hc)
    | dhcp_coarse_tmr alloc =>
      cases hc'
      exact dhcpCoarseTmr_leased hl
    | dhcp_arp_reply addr alloc =>
      cases hc'
      exact dhcpArpReply_leased hl
    | dhcp_network_changed alloc =>
      cases hc'
      exact dhcpNetworkChanged_leased hl

/-- The ticks of a client with right counters are on time. -/
theorem onTime_of_leased {o : Opts} {s : Sys} {e : Event} (h : s.Leased) (hfits : LeaseFits o s e) :
    OnTime s e := by
  cases e with
  | dhcp_coarse_tmr alloc => exact fun c hc b hb => ((h c hc).counts b hb).due (hfits c hc b hb)
  | dhcp_start _ _ _ | dhcp_recv _ _ | dhcp_fine_tmr _ _ | dhcp_arp_reply _ _
  | dhcp_network_changed _ => exact trivial

/-- In every run whose ACKs give the lease that is stored, and whose timers neither run on nor
wrap around, a client that is bound has the lease of its ACK, and each timeout is called when it
is due. -/
theorem lease_kept (o : Opts) (n : Netif) (es : List Event)
    (h : Along (step o) (LeaseFits o) { netif := n } es) :
    Always (step o) Adopted { netif := n } es ∧ Along (step o) OnTime { netif := n } es := by
  have hinit : Sys.Leased { netif := n } := fun c hc => by cases hc
  have hstep : ∀ s e s', Sys.Leased s → LeaseFits o s e → step o s e = .ok s' → s'.Leased :=
    fun s e s' hs hfits => step_leased hs hfits
  constructor
  · rintro es' es'' s rfl hr c hc
    have hl := run_invariant hstep hinit h.left hr c hc
    exact ⟨hl.isSome, hl.has⟩
  · exact run_along hstep (fun s e hs hfits => onTime_of_leased hs hfits) hinit h

/-- The client takes an offer of this address, checks the address, and the lease of this ACK
starts. -/
def ackRun (yiaddr options : Mem) : List Event :=
  [.dhcp_start true true true, .dhcp_recv (testReply 1 DHCP_OFFER yiaddr [54, 4, 10, 0, 0, 1]) true,
    .dhcp_recv (testReply 2 DHCP_ACK yiaddr options) true, .dhcp_fine_tmr true true,
    .dhcp_fine_tmr true true]

/-- A lease of 240 seconds with a mask and a router, that runs out. -/
def leaseRun : List Event :=
  ackRun [192, 168, 1, 2] [51, 4, 0, 0, 0, 240, 1, 4, 255, 255, 255, 0, 3, 4, 192, 168, 1, 1] ++
    List.replicate 5 (.dhcp_coarse_tmr true)

/-- The lease of the example is kept to its end. -/
theorem lease_kept_leaseRun :
    Always (step {}) Adopted { netif := testNetif } leaseRun ∧
      Along (step {}) OnTime { netif := testNetif } leaseRun :=
  lease_kept {} testNetif leaseRun (by decide +kernel)

/-- Without a mask in the ACK, an address of class C gets the mask of class A. -/
theorem default_mask_is_class_a :
    ¬ Always (step {}) Adopted { netif := testNetif }
    (ackRun [192, 168, 1, 2] [51, 4, 0, 0, 0, 240]) := by
  decide +kernel

end Lwip.Dhcp
