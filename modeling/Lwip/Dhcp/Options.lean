import Lwip.Lib.Octets

/-!
# DHCP replies

How `dhcp.c` reads a reply: `dhcp_unfold_reply` copies the message and its options into two blocks
of the heap, and `dhcp_get_option_ptr` looks for an option in them. The search is bounded by the
length of the options only where it starts to read an option; `none` is a read past the end of the
memory.
-/

namespace Lwip.Dhcp

/-- A datagram, the length of its first pbuf, the outcomes of the allocations of the two copies, and
what follows these in memory. -/
structure Datagram where
  p : Mem
  len : ℕ
  optionsAlloc : Bool := true
  msgAlloc : Bool := true
  optionsAfter : Mem := []
  msgAfter : Mem := []

/-- `msg_in`, `options_in` and `options_in_len`, with what follows the blocks. -/
structure Reply where
  msg_in : Mem
  options_in : Mem
  options_in_len : ℕ

/-- `sizeof(struct dhcp_msg) - DHCP_OPTIONS_LEN`. -/
def msgLen : ℕ := 240

/-- `DHCP_OPTION_END`, `DHCP_OPTION_OVERLOAD` and the options that are looked for. -/
def DHCP_OPTION_END : UInt8 := 255
def DHCP_OPTION_OVERLOAD : UInt8 := 52
def DHCP_OPTION_SUBNET_MASK : UInt8 := 1
def DHCP_OPTION_ROUTER : UInt8 := 3
def DHCP_OPTION_LEASE_TIME : UInt8 := 51
def DHCP_OPTION_MESSAGE_TYPE : UInt8 := 53
def DHCP_OPTION_SERVER_ID : UInt8 := 54
def DHCP_OPTION_T1 : UInt8 := 58
def DHCP_OPTION_T2 : UInt8 := 59

/-- The first loop of `dhcp_get_option_ptr`, with `left` octets of the options left: where the
option is, and `overload`. Each round skips two octets at least. -/
def scanOptions (option_type : UInt8) :
    (fuel left : ℕ) → (options : Mem) → (overload : UInt8) → Option (Option Mem × UInt8)
  | 0, _, _, overload => some (none, overload)
  | _ + 1, 0, _, overload => some (none, overload)
  | fuel + 1, left + 1, code :: options, overload =>
    if code = DHCP_OPTION_END then some (none, overload)
    else if code = DHCP_OPTION_OVERLOAD then
      match options with
      | _ :: overload :: options => scanOptions option_type fuel (left - 2) options overload
      | _ => none
    else if code = option_type then some (some (code :: options), overload)
    else
      match options with
      | n :: options => scanOptions option_type fuel (left - (1 + n.toNat))
        (options.drop n.toNat) overload
      | [] => none
  | _ + 1, _ + 1, [], _ => none

/-- The second loop, over the fields that are overloaded with options. -/
def scanField (option_type : UInt8) : (fuel left : ℕ) → (options : Mem) → Option (Option Mem)
  | 0, _, _ => some none
  | _ + 1, 0, _ => some none
  | fuel + 1, left + 1, code :: options =>
    if code = DHCP_OPTION_END then some none
    else if code = option_type then some (some (code :: options))
    else
      match options with
      | n :: options => scanField option_type fuel (left - (1 + n.toNat)) (options.drop n.toNat)
      | [] => none
  | _ + 1, _ + 1, [] => none

/-- `file` and `sname` in the message. -/
def fileOffset : ℕ := 108
def fileLen : ℕ := 128
def snameOffset : ℕ := 44
def snameLen : ℕ := 64

/-- `dhcp_get_option_ptr`. -/
def dhcpGetOptionPtr (r : Reply) (option_type : UInt8) : Option (Option Mem) := do
  if r.options_in_len = 0 then some none
  else
    let (found, overload) ← scanOptions option_type r.options_in_len r.options_in_len r.options_in 0
    if found.isSome then some found
    else if overload = 0 then some none
    else if overload = 1 then scanField option_type fileLen fileLen (r.msg_in.drop fileOffset)
    else if overload = 2 then scanField option_type snameLen snameLen (r.msg_in.drop snameOffset)
    else scanField option_type (fileLen + snameLen) (fileLen + snameLen) (r.msg_in.drop snameOffset)

/-- `dhcp_get_option_byte` of an option, if it is there. -/
def optionByte (r : Reply) (option_type : UInt8) : Option (Option UInt8) := do
  match ← dhcpGetOptionPtr r option_type with
  | none => some none
  | some (_ :: _ :: a :: _) => some (some a)
  | some _ => none

/-- `dhcp_get_option_long` of an option, if it is there. -/
def optionLong (r : Reply) (option_type : UInt8) : Option (Option ℕ) := do
  match ← dhcpGetOptionPtr r option_type with
  | none => some none
  | some (_ :: _ :: a :: b :: c :: d :: _) => some (some (ntohl a b c d))
  | some _ => none

end Lwip.Dhcp
