import Lwip.Lib.Links
import Lwip.Lib.Run
import Lwip.Netif.Etharp

/-!
# The groups that an interface has joined

`igmp.c`: the list of groups, with one cell for each interface and address. Cells and interfaces are
numbers that stand for their addresses; an address is not handed out twice. The calls of
`igmp_mac_filter` and the messages sent are part of the state. The outcomes of the allocations are a
parameter.
-/

namespace Lwip.Igmp

open Netif (IpAddr ipAddrIsany ipAddrIsmulticast)

/-- The results, `err_t`. -/
inductive Err where
  | OK | MEM | VAL | ARG
  deriving DecidableEq, Repr

/-- The two checks of `igmp_joingroup` and `igmp_leavegroup`, which are assertions in this build. -/
inductive Abort where
  /-- `attempt to join non-multicast address` -/
  | nonMulticast
  /-- `attempt to join allsystems address` -/
  | allsystems
  deriving DecidableEq, Repr

/-- `allsystems`. -/
def allsystems : IpAddr := 0xe0000001

/-- `allrouters`. -/
def allrouters : IpAddr := 0xe0000002

/-- The message types; `igmp_input` tells no others apart. -/
inductive MsgType where
  | MEMB_QUERY | V2_MEMB_REPORT | LEAVE_GROUP | other
  deriving DecidableEq, Repr

/-- `IGMP_V1_DELAYING_MEMBER_TMR`. -/
def IGMP_V1_DELAYING_MEMBER_TMR : UInt8 := 10

/-- `IGMP_JOIN_DELAYING_MEMBER_TMR`. -/
def IGMP_JOIN_DELAYING_MEMBER_TMR : UInt8 := 5

/-- The actions of `igmp_mac_filter`. -/
inductive MacFilter where
  | DEL | ADD
  deriving DecidableEq, Repr

/-- The group membership states. -/
inductive GroupState where
  | NON_MEMBER | DELAYING_MEMBER | IDLE_MEMBER
  deriving DecidableEq, Repr

/-- `struct igmp_group`. -/
structure IgmpGroup where
  next : Option ℕ := none
  interface : ℕ := 0
  group_address : IpAddr := 0
  last_reporter_flag : Bool := false
  group_state : GroupState := .NON_MEMBER
  timer : UInt16 := 0
  /-- Counter of simultaneous uses. -/
  use : UInt8 := 0
  deriving DecidableEq, Repr

/-- What the IGMP code reads of a `struct netif`; `igmp` is `flags & NETIF_FLAG_IGMP`, and
`igmp_mac_filter` says that the interface has such a function. -/
structure NetIf where
  ip_addr : IpAddr
  igmp : Bool := true
  igmp_mac_filter : Bool := true
  deriving DecidableEq, Repr

/-- The interfaces, and the list of those that have been added. -/
structure NetIfs where
  netif : ℕ → NetIf
  netif_list : List ℕ
  nodup : netif_list.Nodup

/-- A message that was sent, with its destination. -/
structure Sent where
  type : MsgType
  dest : IpAddr
  group_address : IpAddr
  interface : ℕ
  deriving DecidableEq, Repr

structure State where
  igmp_group_list : Option ℕ := none
  group : ℕ → IgmpGroup := fun _ => {}
  /-- The next address that `memp_malloc` returns. -/
  fresh : ℕ := 0
  /-- What the MAC filter of an interface was told about a group, the latest call first. -/
  told : ℕ → IpAddr → List MacFilter := fun _ _ => []
  /-- The messages sent, the latest first. -/
  sent : List Sent := []

/-- The outcomes of the allocations: of a group on an interface, and of the pbuf of a message about
a group. -/
structure Memory where
  group : ℕ → Bool := fun _ => true
  pbuf : ℕ → Bool := fun _ => true

namespace State

/-- The groups that a loop over `igmp_group_list` comes to. -/
def groups (s : State) : List ℕ :=
  (walk (fun p => (s.group p).next) s.fresh s.igmp_group_list).getD []

def modify (s : State) (p : ℕ) (f : IgmpGroup → IgmpGroup) : State :=
  { s with group := Function.update s.group p (f (s.group p)) }

/-- `netif->igmp_mac_filter(netif, addr, action)`, if the interface has this function. -/
def tell (ifs : NetIfs) (s : State) (n : ℕ) (addr : IpAddr) (action : MacFilter) : State :=
  if (ifs.netif n).igmp_mac_filter then
    { s with told := fun m a => if m = n ∧ a = addr then action :: s.told m a else s.told m a }
  else s

end State

open State

/-- `igmp_send`. -/
def igmpSend (s : State) (p : ℕ) (type : MsgType) (pbuf : Bool) : State :=
  let group := s.group p
  if pbuf then
    match type with
    | .V2_MEMB_REPORT =>
      -- remember we were the last to report
      { s.modify p fun g => { g with last_reporter_flag := true } with
        sent := ⟨type, group.group_address, group.group_address, group.interface⟩ :: s.sent }
    | .LEAVE_GROUP =>
      { s with sent := ⟨type, allrouters, group.group_address, group.interface⟩ :: s.sent }
    | _ => s
  else s

/-- `igmp_start_timer`. -/
def igmpStartTimer (s : State) (p : ℕ) (max_time : UInt8) : State :=
  s.modify p fun g => { g with timer := max_time.toUInt16 }

/-- `igmp_delaying_member`. -/
def igmpDelayingMember (s : State) (p : ℕ) (maxresp : UInt8) : State :=
  if (s.group p).group_state = .IDLE_MEMBER ∨
      (s.group p).group_state = .DELAYING_MEMBER ∧ maxresp.toUInt16 > (s.group p).timer then
    (igmpStartTimer s p (maxresp / 2)).modify p fun g => { g with group_state := .DELAYING_MEMBER }
  else s

/-- `igmp_lookfor_group`. -/
def igmpLookforGroup (s : State) (ifp : ℕ) (addr : IpAddr) : Option ℕ :=
  s.groups.find? fun p => (s.group p).interface = ifp ∧ (s.group p).group_address = addr

/-- `igmp_lookup_group`. -/
def igmpLookupGroup (s : State) (ifp : ℕ) (addr : IpAddr) (mem : Memory) : Option ℕ × State :=
  match igmpLookforGroup s ifp addr with
  | some p => (some p, s)
  | none =>
    if mem.group ifp then
      let group : IgmpGroup :=
        { next := s.igmp_group_list, interface := ifp, group_address := addr,
          last_reporter_flag := false, group_state := .NON_MEMBER, timer := 0, use := 0 }
      (some s.fresh,
        { s with igmp_group_list := some s.fresh, group := Function.update s.group s.fresh group,
                 fresh := s.fresh + 1 })
    else (none, s)

/-- `igmp_remove_group`. -/
def igmpRemoveGroup (s : State) (p : ℕ) : Err × State :=
  if s.igmp_group_list = some p then
    (.OK, { s with igmp_group_list := (s.group p).next })
  else
    match s.groups.find? fun q => (s.group q).next = some p with
    | some q => (.OK, s.modify q fun g => { g with next := (s.group p).next })
    | none => (.ARG, s)

/-- `igmp_start`. -/
def igmpStart (ifs : NetIfs) (s : State) (n : ℕ) (mem : Memory) : Err × State :=
  match igmpLookupGroup s n allsystems mem with
  | (some p, s) =>
    let s := s.modify p fun g => { g with group_state := .IDLE_MEMBER, use := g.use + 1 }
    (.OK, s.tell ifs n allsystems .ADD)
  | (none, s) => (.MEM, s)

/-- The loop of `igmp_stop`, with its `prev`. -/
def igmpStopLoop (ifs : NetIfs) (n : ℕ) : List ℕ → Option ℕ → State → State
  | [], _, s => s
  | p :: l, prev, s =>
    let next := (s.group p).next
    if (s.group p).interface = n then
      -- is it the first group of the list?
      let s := if s.igmp_group_list = some p then { s with igmp_group_list := next } else s
      -- is there a "previous" group defined?
      let s := match prev with
        | some q => s.modify q fun g => { g with next := next }
        | none => s
      igmpStopLoop ifs n l prev (s.tell ifs n (s.group p).group_address .DEL)
    else igmpStopLoop ifs n l (some p) s

/-- `igmp_stop`. -/
def igmpStop (ifs : NetIfs) (s : State) (n : ℕ) : Err × State :=
  (.OK, igmpStopLoop ifs n s.groups none s)

/-- `igmp_report_groups`. -/
def igmpReportGroups (s : State) (n : ℕ) : State :=
  s.groups.foldl (fun s p =>
    if (s.group p).interface = n then igmpDelayingMember s p IGMP_JOIN_DELAYING_MEMBER_TMR else s) s

/-- A packet for `igmp_input`: its two checks, of the length and of the sum, and its message. -/
structure Packet where
  long : Bool := true
  chksum : Bool := true
  igmp_msgtype : MsgType
  igmp_maxresp : UInt8
  igmp_group_address : IpAddr
  deriving DecidableEq, Repr

/-- `igmp_input`. -/
def igmpInput (s : State) (p : Packet) (inp : ℕ) (dest : IpAddr) : State :=
  if p.long = false ∨ p.chksum = false then s
  else
    match igmpLookforGroup s inp dest with
    | none => s
    | some group =>
      match p.igmp_msgtype with
      | .MEMB_QUERY =>
        if dest = allsystems ∧ p.igmp_group_address = 0 then
          -- the general query; version 1 is treated as version 2
          let maxresp := if p.igmp_maxresp = 0 then IGMP_V1_DELAYING_MEMBER_TMR else p.igmp_maxresp
          s.groups.foldl (fun s q =>
            if (s.group q).interface = inp ∧ (s.group q).group_address ≠ allsystems then
              igmpDelayingMember s q maxresp
            else s) s
        else if (s.group group).group_address ≠ 0 then
          -- a query to a specific group
          match if dest = allsystems then igmpLookforGroup s inp p.igmp_group_address
            else some group with
          | some group => igmpDelayingMember s group p.igmp_maxresp
          | none => s
        else s
      | .V2_MEMB_REPORT =>
        if (s.group group).group_state = .DELAYING_MEMBER then
          s.modify group fun g =>
            { g with timer := 0, group_state := .IDLE_MEMBER, last_reporter_flag := false }
        else s
      | _ => s

/-- Should an address of `igmp_joingroup` or `igmp_leavegroup` reach this interface? `NULL` is 0
here. -/
def NetIfs.covers (ifs : NetIfs) (ifaddr : IpAddr) (n : ℕ) : Bool :=
  (ifs.netif n).igmp && (ipAddrIsany ifaddr || decide ((ifs.netif n).ip_addr = ifaddr))

/-- The loop body of `igmp_joingroup` for a group that was found or created. -/
def joinGroup (ifs : NetIfs) (mem : Memory) (n : ℕ) (groupaddr : IpAddr)
    (p : ℕ) (s : State) : State :=
  let s :=
    -- this should create a new group, check the state to make sure
    if (s.group p).group_state ≠ .NON_MEMBER then s
    else
      let s := if (s.group p).use = 0 then s.tell ifs n groupaddr .ADD else s
      let s := igmpSend s p .V2_MEMB_REPORT (mem.pbuf p)
      let s := igmpStartTimer s p IGMP_JOIN_DELAYING_MEMBER_TMR
      s.modify p fun g => { g with group_state := .DELAYING_MEMBER }
  s.modify p fun g => { g with use := g.use + 1 }

/-- The loop of `igmp_joingroup` over the interfaces. -/
def igmpJoinLoop (ifs : NetIfs) (mem : Memory) (ifaddr groupaddr : IpAddr) :
    List ℕ → Err → State → Err × State
  | [], err, s => (err, s)
  | n :: ns, err, s =>
    if ifs.covers ifaddr n then
      match igmpLookupGroup s n groupaddr mem with
      | (some p, s) => igmpJoinLoop ifs mem ifaddr groupaddr ns .OK
        (joinGroup ifs mem n groupaddr p s)
      -- return an error even if some network interfaces are joined
      | (none, s) => (.MEM, s)
    else igmpJoinLoop ifs mem ifaddr groupaddr ns err s

/-- `make sure it is multicast address`. -/
def checkGroupaddr (groupaddr : IpAddr) : Except Abort Unit :=
  if ipAddrIsmulticast groupaddr = false then .error .nonMulticast
  else if groupaddr = allsystems then .error .allsystems
  else .ok ()

/-- `igmp_joingroup`. -/
def igmpJoingroup (ifs : NetIfs) (s : State) (ifaddr groupaddr : IpAddr) (mem : Memory) :
    Except Abort (Err × State) := do
  checkGroupaddr groupaddr
  return igmpJoinLoop ifs mem ifaddr groupaddr ifs.netif_list .VAL s

/-- The loop body of `igmp_leavegroup` for a group that was found. -/
def leaveGroup (ifs : NetIfs) (mem : Memory) (n : ℕ) (groupaddr : IpAddr)
    (p : ℕ) (s : State) : State :=
  -- if there is no other use of the group
  if (s.group p).use ≤ 1 then
    let s := if (s.group p).last_reporter_flag then igmpSend s p .LEAVE_GROUP (mem.pbuf p) else s
    (igmpRemoveGroup (s.tell ifs n groupaddr .DEL) p).2
  else s.modify p fun g => { g with use := g.use - 1 }

/-- The loop of `igmp_leavegroup` over the interfaces. -/
def igmpLeaveLoop (ifs : NetIfs) (mem : Memory) (ifaddr groupaddr : IpAddr) :
    List ℕ → Err → State → Err × State
  | [], err, s => (err, s)
  | n :: ns, err, s =>
    if ifs.covers ifaddr n then
      match igmpLookforGroup s n groupaddr with
      | some p => igmpLeaveLoop ifs mem ifaddr groupaddr ns .OK (leaveGroup ifs mem n groupaddr p s)
      -- it's not a fatal error on "leavegroup"
      | none => igmpLeaveLoop ifs mem ifaddr groupaddr ns err s
    else igmpLeaveLoop ifs mem ifaddr groupaddr ns err s

/-- `igmp_leavegroup`. -/
def igmpLeavegroup (ifs : NetIfs) (s : State) (ifaddr groupaddr : IpAddr) (mem : Memory) :
    Except Abort (Err × State) := do
  checkGroupaddr groupaddr
  return igmpLeaveLoop ifs mem ifaddr groupaddr ifs.netif_list .VAL s

/-- `igmp_timeout`. -/
def igmpTimeout (s : State) (p : ℕ) (mem : Memory) : State :=
  if (s.group p).group_state = .DELAYING_MEMBER then igmpSend s p .V2_MEMB_REPORT (mem.pbuf p)
  else s

/-- `igmp_tmr`. -/
def igmpTmr (s : State) (mem : Memory) : State :=
  s.groups.foldl (fun s p =>
    if (s.group p).timer ≠ 0 then
      let s := s.modify p fun g => { g with timer := g.timer - 1 }
      if (s.group p).timer = 0 then igmpTimeout s p mem else s
    else s) s

end Lwip.Igmp
