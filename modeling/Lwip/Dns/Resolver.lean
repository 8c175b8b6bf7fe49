import Lwip.Dns.Message
import Lwip.Lib.Run
import Mathlib.Data.List.FinRange
import Mathlib.Logic.Function.Basic

/-!
# The DNS resolver

`dns.c` with its table. A `found` callback runs in the middle of `dns_recv` and of
`dns_check_entry`, and may call `dns_gethostbyname`; so these two functions stop where they call it
(`Cont`), and go on when it returns. `step` takes the calls of the application and of the callbacks,
the datagrams and the ticks in any order.
-/

namespace Lwip.Dns

/-- The options. `inet_addr` reads an address in dotted notation. -/
structure Opts where
  DNS_TABLE_SIZE : ℕ := 4
  DNS_MAX_NAME_LENGTH : ℕ := 256
  DNS_MAX_SERVERS : ℕ := 2
  DNS_MSG_SIZE : ℕ := 512
  DNS_MAX_RETRIES : ℕ := 4
  DNS_MAX_TTL : ℕ := 604800
  DNS_SERVER_ADDRESS : BitVec 32 := 0xd043dede
  LWIP_HAVE_LOOPIF : Bool := false
  inet_addr : List UInt8 → BitVec 32

/-- Why the program stops: an assertion of `dns_send`, or a read past the end of its memory. -/
inductive Abort where
  | serverOutOfArray
  | serverHasNoAddress
  | outOfMemory
  deriving DecidableEq, Repr

/-- `err_t`. -/
inductive Err where
  | OK | INPROGRESS | MEM | VAL
  deriving DecidableEq, Repr

inductive DnsState where
  | UNUSED | NEW | ASKING | DONE
  deriving DecidableEq, Repr

/-- `struct dns_table_entry`; `tmr`, `retries`, `numdns` and `seqno` are `u8_t`, `ttl` is a
`u32_t`. -/
structure Entry where
  state : DnsState := .UNUSED
  numdns : ℕ := 0
  tmr : ℕ := 0
  retries : ℕ := 0
  seqno : ℕ := 0
  err : UInt8 := 0
  ttl : ℕ := 0
  name : List UInt8 := []
  ipaddr : BitVec 32 := 0
  found : Option ℕ := none
  arg : ℕ := 0
  /-- Not in the source: the number of the request that the entry is for. -/
  ticket : ℕ := 0
  deriving DecidableEq, Repr

/-- The arguments of `dns_gethostbyname`, with `none` for `NULL`. A callback is known by its
address. -/
structure Request where
  hostname : Option (List UInt8)
  /-- `addr` is not `NULL`. -/
  addr : Bool := true
  found : Option ℕ
  arg : ℕ
  deriving DecidableEq, Repr

/-- The variables of the module. -/
structure Resolver (o : Opts) where
  /-- `dns_pcb` is not `NULL`. -/
  dns_pcb : Bool := false
  dns_seqno : ℕ := 0
  dns_table : Fin o.DNS_TABLE_SIZE → Entry := fun _ => {}
  dns_servers : ℕ → BitVec 32 := fun _ => 0

/-- `INADDR_NONE`. -/
def INADDR_NONE : BitVec 32 := 0xffffffff

variable {o : Opts}

/-- A store to one entry. -/
def Resolver.set (s : Resolver o) (i : Fin o.DNS_TABLE_SIZE) (e : Entry) : Resolver o :=
  { s with dns_table := Function.update s.dns_table i e }

/-- `dns_setserver`. -/
def dnsSetserver (s : Resolver o) (numdns : ℕ) (dnsserver : BitVec 32) : Resolver o :=
  if numdns < o.DNS_MAX_SERVERS ∧ s.dns_pcb ∧ dnsserver ≠ 0 then
    { s with dns_servers := Function.update s.dns_servers numdns dnsserver }
  else s

/-- `dns_init`, with the outcome of `udp_new`. -/
def dnsInit (s : Resolver o) (udp : Bool) : Resolver o :=
  if s.dns_pcb then s
  else if udp then dnsSetserver { s with dns_pcb := true } 0 o.DNS_SERVER_ADDRESS
  else s

/-- `dns_lookup`. -/
def dnsLookup (s : Resolver o) (name : List UInt8) : BitVec 32 :=
  match (List.finRange o.DNS_TABLE_SIZE).find? fun i =>
      (s.dns_table i).state = .DONE ∧ (s.dns_table i).name = name with
  | some i => (s.dns_table i).ipaddr
  | none => INADDR_NONE

/-- `dns_send`, which leaves the table alone. -/
def dnsSend (s : Resolver o) (numdns : ℕ) : Except Abort Unit :=
  if ¬ numdns < o.DNS_MAX_SERVERS then .error .serverOutOfArray
  else if s.dns_servers numdns = 0 then .error .serverHasNoAddress
  else .ok ()

/-- The last lines of `dns_recv` and of a timeout: flush this entry. -/
def dnsFlush (s : Resolver o) (i : Fin o.DNS_TABLE_SIZE) : Resolver o :=
  s.set i { s.dns_table i with state := .UNUSED, found := none }

/-- `dns_check_entry`, up to the call of the callback: `true` if there is one, to be called with no
address. -/
def dnsCheckEntry (s : Resolver o) (i : Fin o.DNS_TABLE_SIZE) : Except Abort (Resolver o × Bool) :=
  let pEntry := s.dns_table i
  match pEntry.state with
  | .NEW => do
    dnsSend s 0
    .ok (s.set i { pEntry with state := .ASKING, numdns := 0, tmr := 1, retries := 0 }, false)
  | .ASKING =>
    let tmr := (pEntry.tmr + 255) % 2^8
    if tmr = 0 then
      let retries := (pEntry.retries + 1) % 2^8
      if retries = o.DNS_MAX_RETRIES then
        if pEntry.numdns + 1 < o.DNS_MAX_SERVERS ∧ s.dns_servers (pEntry.numdns + 1) ≠ 0 then
          .ok (s.set i { pEntry with
            numdns := (pEntry.numdns + 1) % 2^8, tmr := 1, retries := 0 }, false)
        else if pEntry.found.isSome then .ok (s.set i { pEntry with tmr, retries }, true)
        else .ok (dnsFlush (s.set i { pEntry with tmr, retries }) i, false)
      else do
        dnsSend s pEntry.numdns
        .ok (s.set i { pEntry with tmr := retries, retries }, false)
    else .ok (s.set i { pEntry with tmr }, false)
  | .DONE =>
    let ttl := (pEntry.ttl + (2^32 - 1)) % 2^32
    if ttl = 0 then .ok (dnsFlush (s.set i { pEntry with ttl }) i, false)
    else .ok (s.set i { pEntry with ttl }, false)
  | .UNUSED => .ok (s, false)

/-- The scan of `dns_enqueue`: an unused entry, or `lseqi`. -/
def dnsScan (s : Resolver o) : List (Fin o.DNS_TABLE_SIZE) → (lseq lseqi : ℕ) →
    Fin o.DNS_TABLE_SIZE ⊕ ℕ
  | [], _, lseqi => .inr lseqi
  | i :: is, lseq, lseqi =>
    let pEntry := s.dns_table i
    if pEntry.state = .UNUSED then .inl i
    else if pEntry.state = .DONE ∧ (s.dns_seqno : ℤ) - pEntry.seqno > lseq then
      dnsScan s is (s.dns_seqno - pEntry.seqno) i
    else dnsScan s is lseq lseqi

/-- The entry that `dns_enqueue` uses. -/
def dnsFreeEntry (s : Resolver o) : Option (Fin o.DNS_TABLE_SIZE) :=
  match dnsScan s (List.finRange o.DNS_TABLE_SIZE) 0 0 with
  | .inl i => some i
  | .inr lseqi =>
    if h : lseqi < o.DNS_TABLE_SIZE then
      if (s.dns_table ⟨lseqi, h⟩).state = .DONE then some ⟨lseqi, h⟩ else none
    else none

/-- `dns_enqueue`; the address and the lifetime of the entry stay what they were. -/
def dnsEnqueue (s : Resolver o) (ticket : ℕ) (name : List UInt8) (found : Option ℕ) (arg : ℕ) :
    Except Abort (Resolver o × Err) :=
  match dnsFreeEntry s with
  | none => .ok (s, .MEM)
  | some i => do
    let pEntry := s.dns_table i
    let s : Resolver o := { s.set i { pEntry with
      state := .NEW, seqno := s.dns_seqno, found, arg, name, ticket } with
      dns_seqno := (s.dns_seqno + 1) % 2^8 }
    let r ← dnsCheckEntry s i
    .ok (r.1, .INPROGRESS)

/-- `"localhost"`. -/
def localhost : List UInt8 := [108, 111, 99, 97, 108, 104, 111, 115, 116]

/-- `dns_gethostbyname`, with the address that it stores. -/
def dnsGethostbyname (s : Resolver o) (ticket : ℕ) (q : Request) :
    Except Abort (Resolver o × Err × BitVec 32) :=
  match q.hostname with
  | none => .ok (s, .VAL, 0)
  | some hostname =>
    if ¬ s.dns_pcb ∨ ¬ q.addr ∨ hostname = [] ∨ hostname.length ≥ o.DNS_MAX_NAME_LENGTH then
      .ok (s, .VAL, 0)
    else if o.LWIP_HAVE_LOOPIF ∧ hostname = localhost then .ok (s, .OK, 0x7f000001)
    else if o.inet_addr hostname ≠ INADDR_NONE then .ok (s, .OK, o.inet_addr hostname)
    else if dnsLookup s hostname ≠ INADDR_NONE then .ok (s, .OK, dnsLookup s hostname)
    else do
      let r ← dnsEnqueue s ticket hostname q.found q.arg
      .ok (r.1, r.2, INADDR_NONE)

/-- A datagram, what follows it in `dns_payload` and in memory, and what follows the name of the
entry that it is for. -/
structure Datagram where
  p : Mem
  after : Mem := []
  nameAfter : Mem := []

/-- What `dns_recv` reads in the header. -/
def Datagram.id (m : Datagram) : ℕ := ntohs (m.p.getD 0 0) (m.p.getD 1 0) % 2^8
def Datagram.flags1 (m : Datagram) : UInt8 := m.p.getD 2 0
def Datagram.flags2 (m : Datagram) : UInt8 := m.p.getD 3 0
def Datagram.nquestions (m : Datagram) : ℕ := ntohs (m.p.getD 4 0) (m.p.getD 5 0) % 2^8
def Datagram.nanswers (m : Datagram) : ℕ := ntohs (m.p.getD 6 0) (m.p.getD 7 0) % 2^8

/-- What follows the header. -/
def Datagram.body (m : Datagram) : Mem := m.p.drop 12 ++ m.after

/-- The flags of the header are those of a response without an error to one question. -/
def Datagram.responds (m : Datagram) : Bool :=
  m.flags1 &&& 0x80 != 0 && m.flags2 &&& 0x0f == 0 && m.nquestions == 1

/-- The question is the name of the entry, for `dns_compare_name`. -/
def Datagram.compare (m : Datagram) (name : List UInt8) : Option Bool :=
  dnsCompareName (name ++ 0 :: m.nameAfter) m.body

/-- The A record that `dns_recv` takes, once the header and the name have been checked. -/
def Datagram.answer (m : Datagram) : Option (Option ARecord) :=
  (dnsParseName m.body).bind fun rest => dnsAnswers m.nanswers (rest.drop 4)

/-- `dns_recv`, up to the call of the callback: the entry that was asking, and the A record that was
taken, or none for an error. -/
def dnsRecv (s : Resolver o) (m : Datagram) :
    Except Abort (Resolver o × Option (Fin o.DNS_TABLE_SIZE × Option ARecord)) :=
  if m.p.length > o.DNS_MSG_SIZE then .ok (s, none)
  else if m.p.length < 12 + 4 + 10 then .ok (s, none)
  else if h : m.id < o.DNS_TABLE_SIZE then
    let i : Fin o.DNS_TABLE_SIZE := ⟨m.id, h⟩
    let pEntry := s.dns_table i
    if pEntry.state = .ASKING then
      let pEntry := { pEntry with state := .DONE, err := m.flags2 &&& 0x0f }
      let s := s.set i pEntry
      if m.responds then do
        if ← inMemory .outOfMemory (m.compare pEntry.name) then .ok (s, some (i, none))
        else
          match ← inMemory .outOfMemory m.answer with
          | none => .ok (s, some (i, none))
          | some ans =>
            let pEntry := { pEntry with ttl := min ans.ttl o.DNS_MAX_TTL, ipaddr := ans.ipaddr }
            .ok (s.set i pEntry, some (i, some ans))
      else .ok (s, some (i, none))
    else .ok (s, none)
  else .ok (s, none)

/-! ## Runs -/

/-- What is left to do when a callback returns. -/
inductive Cont (o : Opts) where
  /-- `dns_recv`, after an answer. -/
  | memerr2
  /-- `dns_recv`, after an error. -/
  | responseerr (i : Fin o.DNS_TABLE_SIZE)
  /-- `dns_check_entries`, after a timeout; the entries that follow are still to be checked. -/
  | timeout (i : Fin o.DNS_TABLE_SIZE) (rest : List (Fin o.DNS_TABLE_SIZE))

/-- A response that was accepted for a query of this name. -/
structure Accepted where
  name : List UInt8
  p : Mem
  tick : ℕ

/-- The resolver, the callback that runs, and what happened so far: the callbacks and arguments of
the requests for which `ERR_INPROGRESS` was returned, the numbers of those invoked, the ticks since
`dns_init`, and the responses. -/
structure Sys (o : Opts) where
  dns : Resolver o := {}
  cont : Option (Cont o) := none
  asked : List (ℕ × ℕ) := []
  invoked : List ℕ := []
  ticks : ℕ := 0
  accepted : List Accepted := []

inductive Event where
  | dns_init (udp : Bool)
  | dns_setserver (numdns : ℕ) (dnsserver : BitVec 32)
  /-- A call by the application, or by the callback that runs. -/
  | dns_gethostbyname (q : Request)
  | dns_recv (m : Datagram)
  | dns_tmr
  /-- The callback returns. -/
  | ret

/-- The callback of an entry is called, and `k` is left to do. -/
def Sys.invoke (s : Sys o) (dns : Resolver o) (i : Fin o.DNS_TABLE_SIZE) (k : Cont o) : Sys o :=
  { s with dns, cont := some k, invoked := s.invoked ++ [(dns.dns_table i).ticket] }

/-- `dns_check_entries`, for the entries that are still to be checked. -/
def dnsCheckEntries (s : Sys o) : List (Fin o.DNS_TABLE_SIZE) → Except Abort (Sys o)
  | [] => .ok s
  | i :: rest => do
    let r ← dnsCheckEntry s.dns i
    if r.2 then .ok (s.invoke r.1 i (.timeout i rest))
    else dnsCheckEntries { s with dns := r.1 } rest

/-- What `dns_recv` does with an entry that was asking. -/
def dnsRecvEntry (s : Sys o) (m : Datagram) (dns : Resolver o) (i : Fin o.DNS_TABLE_SIZE) :
    Option ARecord → Sys o
  | some _ =>
    let s := { s with accepted := s.accepted ++ [Accepted.mk (dns.dns_table i).name m.p s.ticks] }
    if (dns.dns_table i).found.isSome then s.invoke dns i .memerr2 else { s with dns }
  | none =>
    if (dns.dns_table i).found.isSome then s.invoke dns i (.responseerr i)
    else { s with dns := dnsFlush dns i }

/-- One event. Datagrams and ticks wait until the callback has returned. -/
def step (o : Opts) (s : Sys o) : Event → Except Abort (Sys o)
  | .dns_init udp => .ok { s with dns := dnsInit s.dns udp }
  | .dns_setserver numdns dnsserver => .ok { s with dns := dnsSetserver s.dns numdns dnsserver }
  | .dns_gethostbyname q => do
    let r ← dnsGethostbyname s.dns s.asked.length q
    .ok { s with
      dns := r.1
      asked := if r.2.1 = .INPROGRESS then s.asked ++ q.found.toList.map (·, q.arg) else s.asked }
  | .dns_recv m =>
    match s.cont with
    | some _ => .ok s
    | none =>
      if s.dns.dns_pcb then do
        let r ← dnsRecv s.dns m
        match r.2 with
        | none => .ok { s with dns := r.1 }
        | some (i, ans) => .ok (dnsRecvEntry s m r.1 i ans)
      else .ok s
  | .dns_tmr =>
    match s.cont with
    | some _ => .ok s
    | none =>
      if s.dns.dns_pcb then
        dnsCheckEntries { s with ticks := s.ticks + 1 } (List.finRange o.DNS_TABLE_SIZE)
      else .ok s
  | .ret =>
    match s.cont with
    | none => .ok s
    | some .memerr2 => .ok { s with cont := none }
    | some (.responseerr i) => .ok { s with dns := dnsFlush s.dns i, cont := none }
    | some (.timeout i rest) =>
      dnsCheckEntries { s with dns := dnsFlush s.dns i, cont := none } rest

end Lwip.Dns
