import Lwip.Dhcp.Client
import Lwip.Dhcp.Search
import Lwip.Pbuf.Copy

/-!
# DHCP replies in pbufs

`dhcp_unfold_reply` of a chain of pbufs, however it is cut, and what `dhcp_recv`,
`dhcp_handle_offer` and `dhcp_handle_ack` read of the options that are found. The client of
`Client.lean` reads on behind the end of a field; where the checked search finds something, the
client finds the same (`dhcpGetOptionPtr_eq`).
-/

namespace Lwip.Dhcp

open Pbuf (Heap ChainAt pbufCopyPartial)

/-! ## The copies -/

/-- How `dhcp_unfold_reply` stops. -/
inductive UnfoldAbort where
  | pbuf (a : Pbuf.Abort)
  /-- `ret == sizeof(struct dhcp_msg) - DHCP_OPTIONS_LEN`, or `ret == dhcp->options_in_len` -/
  | assertion
  deriving DecidableEq, Repr

/-- The outcomes of the allocations of the two blocks, and what is in them before. -/
structure Blocks where
  options : Bool := true
  msg : Bool := true
  content : ℕ → UInt8 := fun _ => 0

/-- `pbuf_copy_partial` to a block of `len` octets, and the assertion that all of them are
copied. -/
def copyAll (blocks : Blocks) (s : Heap) (p len offset : ℕ) : Except UnfoldAbort Mem := do
  let (block, ret) ← (pbufCopyPartial s p blocks.content len offset).mapError .pbuf
  lwipAssert .assertion (ret = len)
  .ok ((List.range len).map block)

/-- `dhcp_unfold_reply` of a chain of pbufs, with `none` for `ERR_MEM`. -/
def dhcpUnfoldReplyChain (blocks : Blocks) (s : Heap) (p : ℕ) :
    Except UnfoldAbort (Option Unfolded) := do
  let b ← (s.get p).mapError .pbuf
  if b.tot_len > msgLen ∧ ¬ blocks.options then .ok none
  else if ¬ blocks.msg then .ok none
  else do
    let msg_in ← copyAll blocks s p msgLen 0
    let options_in ←
      if b.tot_len > msgLen then copyAll blocks s p (b.tot_len - msgLen) msgLen else .ok []
    .ok (some { msg_in, options_in })

section Copies

variable {blocks : Blocks} {s : Heap} {p : ℕ} {l : List ℕ}

/-- Any chain that is long enough is copied. -/
theorem copyAll_eq (h : ChainAt s (some p) l) (len offset : ℕ) : copyAll blocks s p len offset =
    if len ≤ (s.packet l).length - offset then .ok (((s.packet l).drop offset).take len)
    else .error .assertion := by
  rw [copyAll, Pbuf.pbufCopyPartial_eq h]
  dsimp only [Except.mapError, bind, Except.bind, lwipAssert]
  by_cases hlen : len ≤ (s.packet l).length - offset
  · rw [if_pos (Nat.min_eq_left hlen), if_pos hlen]
    refine congrArg Except.ok (List.ext_getElem (by simpa using hlen) fun k hk hk' => ?_)
    rw [List.length_map, List.length_range] at hk
    rw [List.getElem_map, List.getElem_range, List.getElem_take, List.getElem_drop, Pbuf.copyTo,
      if_pos (by omega), Nat.sub_zero, List.getD_eq_getElem]
  · rw [if_neg (by omega), if_neg hlen]

/-- The reply that octets unfold to. -/
def unfolded (octets : Mem) : Unfolded := ⟨octets.take msgLen, octets.drop msgLen⟩

/-- `dhcp_unfold_reply` of any chain. -/
theorem dhcpUnfoldReplyChain_eq (h : ChainAt s (some p) l) : dhcpUnfoldReplyChain blocks s p =
    if (s.packet l).length > msgLen ∧ ¬ blocks.options then .ok none
    else if ¬ blocks.msg then .ok none
    else if msgLen ≤ (s.packet l).length then .ok (some (unfolded (s.packet l)))
    else .error .assertion := by
  obtain ⟨b, l', hb, -, -, -⟩ := h.head
  have htot : b.tot_len = (s.packet l).length := (Heap.totOf_some hb).symm.trans h.totOf_eq
  rw [dhcpUnfoldReplyChain, Heap.get_eq_ok.mpr hb]
  dsimp only [Except.mapError, bind, Except.bind]
  rw [htot, copyAll_eq h, copyAll_eq h, List.drop_zero, Nat.sub_zero]
  split
  · rfl
  split
  · rfl
  by_cases hmsg : msgLen ≤ (s.packet l).length
  · rw [if_pos hmsg, if_pos hmsg, if_pos le_rfl]
    dsimp only
    by_cases hmore : (s.packet l).length > msgLen
    · have hall : ((s.packet l).drop msgLen).take ((s.packet l).length - msgLen) =
          (s.packet l).drop msgLen :=
        List.take_of_length_le List.length_drop.le
      rw [if_pos hmore, hall, unfolded]
    · rw [if_neg hmore, unfolded, List.drop_eq_nil_of_le (Nat.not_lt.mp hmore)]
  · rw [if_neg hmsg, if_neg hmsg]

end Copies

/-! ## What is read of them -/

def DHCP_OPTION_BROADCAST : UInt8 := 28
def DHCP_OPTION_DNS_SERVER : UInt8 := 6

/-- `DHCP_MAX_DNS`. -/
def DHCP_MAX_DNS : ℕ := 2

/-- How many octets of a value of `len` octets are read. -/
def valueReads (option_type : UInt8) (len : ℕ) : ℕ :=
  if option_type = DHCP_OPTION_MESSAGE_TYPE then 1
  else if option_type = DHCP_OPTION_DNS_SERVER then 4 * min (len / 4) DHCP_MAX_DNS
  else 4

/-- The length octet of an option. -/
def Unfolded.lenAt (u : Unfolded) : Ptr → ℕ
  | .options k => (u.options_in.getD (k + 1) 0).toNat
  | .msg k => (u.msg_in.getD (k + 1) 0).toNat

/-- The value of the message type. -/
def Unfolded.msgType (u : Unfolded) : Ptr → UInt8
  | .options k => u.options_in.getD (k + 2) 0
  | .msg k => u.msg_in.getD (k + 2) 0

/-- The options that `dhcp_recv` reads, when the message type is the one found at `p`. -/
def looksFor (u : Unfolded) (state : State) (p : Option Ptr) : List UInt8 :=
  DHCP_OPTION_MESSAGE_TYPE ::
    if p.map u.msgType = some DHCP_ACK ∧ state = .REQUESTING then
      [DHCP_OPTION_LEASE_TIME, DHCP_OPTION_T1, DHCP_OPTION_T2, DHCP_OPTION_SUBNET_MASK,
        DHCP_OPTION_ROUTER, DHCP_OPTION_BROADCAST, DHCP_OPTION_DNS_SERVER]
    else if p.map u.msgType = some DHCP_OFFER ∧ state = .SELECTING then [DHCP_OPTION_SERVER_ID]
    else []

/-- The values that are read are as long as the code takes them to be. -/
def ValuesInside (u : Unfolded) (state : State) (search : UInt8 → Option Ptr) : Prop :=
  ∀ o ∈ looksFor u state (search DHCP_OPTION_MESSAGE_TYPE), ∀ p, search o = some p →
    valueReads o (u.lenAt p) ≤ u.lenAt p

/-- The options that are read at all. -/
def readOptions : List UInt8 :=
  [DHCP_OPTION_MESSAGE_TYPE, DHCP_OPTION_LEASE_TIME, DHCP_OPTION_T1, DHCP_OPTION_T2,
    DHCP_OPTION_SUBNET_MASK,
    DHCP_OPTION_ROUTER, DHCP_OPTION_BROADCAST, DHCP_OPTION_DNS_SERVER, DHCP_OPTION_SERVER_ID]

/-- What is read is one of the options that are read. -/
theorem looksFor_subset (u : Unfolded) (state : State) (p : Option Ptr) :
    looksFor u state p ⊆ readOptions := by
  rw [looksFor]
  split
  · decide
  split
  · decide
  · decide

/-! ## What holds of a reply -/

/-- The search for each option in `O` reads inside of the fields, comes to an end and finds the
first option there is; and the values that are read are inside of their options. -/
structure Unfolded.Right (u : Unfolded) (state : State) (O : Set UInt8) : Prop where
  search : ∀ o ∈ O, dhcpGetOptionPtrChecked u o = .ok (u.option o)
  values : ValuesInside u state fun o => (dhcpGetOptionPtrChecked u o).toOption.join

/-- A chain of pbufs is unfolded to a reply that is searched right, unless there is no memory for
it. -/
def ReplyRight (blocks : Blocks) (s : Heap) (p : ℕ) (state : State) (O : Set UInt8) : Prop :=
  ∃ r, dhcpUnfoldReplyChain blocks s p = .ok r ∧ ∀ u ∈ r, u.Right state O

/-- There is no memory for the reply; or it is not too short, plain for each option in `O`, and the
values in it are long enough. -/
def ReplyPlain (blocks : Blocks) (octets : Mem) (state : State) (O : Set UInt8) : Prop :=
  (octets.length > msgLen ∧ ¬ blocks.options) ∨ ¬ blocks.msg ∨
    (msgLen ≤ octets.length ∧ (∀ o ∈ O, PlainReply (unfolded octets) o) ∧
      ValuesInside (unfolded octets) state (unfolded octets).option)

section Right

variable {u : Unfolded} {state : State} {O : Set UInt8}

/-- Values are inside by one search if they are by another that finds the same. -/
theorem ValuesInside.congr {search search' : UInt8 → Option Ptr} (h : ValuesInside u state search)
    (hsame : ∀ o ∈ readOptions, search' o = search o) : ValuesInside u state search' := by
  intro o ho p hp
  rw [hsame _ (by decide)] at ho
  rw [hsame o (looksFor_subset u state _ ho)] at hp
  exact h o ho p hp

/-- What `dhcp_recv` asks of a reply holds of one that is plain, for all options that are looked
for; and of a usual one it holds only then. -/
theorem dhcpReply_right (blocks : Blocks) (s : Heap) (p : ℕ) (l : List ℕ) (h : ChainAt s (some p) l)
    (hip : (s.packet l).length ≤ 65535 - 20 - 8) (state : State) (O : Set UInt8)
    (hO : ∀ o ∈ O, o ≠ DHCP_OPTION_END ∧ o ≠ DHCP_OPTION_PAD) (hread : ∀ o ∈ readOptions, o ∈ O) :
    (ReplyPlain blocks (s.packet l) state O → ReplyRight blocks s p state O) ∧
      ((∀ o ∈ O, UsualReply (unfolded (s.packet l)) o) → ReplyRight blocks s p state O →
        ReplyPlain blocks (s.packet l) state O) := by
  have hsize : (unfolded (s.packet l)).options_in.length + 257 ≤ 2^16 := by
    rw [unfolded, List.length_drop, msgLen]
    omega
  rw [ReplyRight, dhcpUnfoldReplyChain_eq h]
  by_cases hoptions : (s.packet l).length > msgLen ∧ ¬ blocks.options
  · rw [if_pos hoptions]
    exact ⟨fun _ => ⟨none, rfl, nofun⟩, fun _ _ => .inl hoptions⟩
  by_cases hmsg : ¬ blocks.msg
  · rw [if_neg hoptions, if_pos hmsg]
    exact ⟨fun _ => ⟨none, rfl, nofun⟩, fun _ _ => .inr (.inl hmsg)⟩
  rw [if_neg hoptions, if_neg hmsg]
  constructor
  · rintro (hmem | hmem | ⟨hlen, hplain, hvalues⟩)
    · exact absurd hmem hoptions
    · exact absurd hmem hmsg
    have hsearch : ∀ o ∈ O, dhcpGetOptionPtrChecked (unfolded (s.packet l)) o =
        .ok ((unfolded (s.packet l)).option o) :=
      fun o ho => (hplain o ho).search_eq hsize (hO o ho).1 (hO o ho).2
    rw [if_pos hlen]
    refine ⟨_, rfl, fun u hu => ?_⟩
    obtain rfl := Option.some.inj hu
    refine ⟨hsearch, hvalues.congr fun o ho => ?_⟩
    rw [hsearch o (hread o ho)]
    rfl
  · rintro husual ⟨r, hr, hright⟩
    split at hr
    · next hlen =>
      cases hr
      obtain ⟨hsearch, hvalues⟩ := hright _ rfl
      refine .inr (.inr ⟨hlen, fun o ho => ?_, hvalues.congr fun o ho => ?_⟩)
      · exact (husual o ho).plain_of_search hsize (hO o ho).1 (hO o ho).2 (hsearch o ho)
      · rw [hsearch o (hread o ho)]
        rfl
    · cases hr

end Right

/-! ## What the client finds -/

/-- The two blocks, with what is behind them in memory. -/
def Unfolded.toReply (u : Unfolded) (msgAfter optionsAfter : Mem) : Reply where
  msg_in := u.msg_in ++ msgAfter
  options_in := u.options_in ++ optionsAfter
  options_in_len := u.options_in.length

/-- The memory from a place in a reply on. -/
def Reply.at (r : Reply) : Ptr → Mem
  | .options k => r.options_in.drop k
  | .msg k => r.msg_in.drop k

section Client

variable {o overload : UInt8} {mem l t : Mem} {fuel offset : ℕ} {r : Scan} {u : Unfolded}

/-- No options are left. -/
theorem scanOptions_zero (options : Mem) : scanOptions o fuel 0 options overload = some
    (none, overload) := by
  cases fuel <;> rfl

/-- A field without octets. -/
theorem scanField_zero (options : Mem) : scanField o fuel 0 options = some none := by
  cases fuel <;> rfl

/-- The memory behind an option. -/
theorem drop_option {code n : UInt8} (hmem : mem.drop offset = code :: n :: l ++ t)
    (hn : n.toNat ≤ l.length) : mem.drop (offset + 2 + n.toNat) = l.drop n.toNat ++ t := by
  rw [← List.drop_drop, ← List.drop_drop, hmem]
  exact List.drop_append_of_le_length hn

/-- Where the checked loop over the options comes to an end, so does the other one. -/
theorem scanOptions_of_walk (hwalk : walk true o offset overload l = .ok r)
    (hmem : mem.drop offset = l ++ t)
    (hfuel : l.length ≤ fuel) : ∃ overload', scanOptions o fuel l.length (l ++ t) overload =
      some (r.offset?.map mem.drop, overload') ∧ ∀ v, r = .absent v → overload' = v := by
  induction fuel generalizing offset overload l with
  | zero =>
    obtain rfl := List.length_eq_zero_iff.mp (Nat.le_zero.mp hfuel)
    rw [walk_nil] at hwalk
    cases hwalk
    exact ⟨overload, rfl, fun v hv => Scan.absent.inj hv⟩
  | succ fuel ih =>
    cases l with
    | nil =>
      rw [walk_nil] at hwalk
      cases hwalk
      exact ⟨overload, rfl, fun v hv => Scan.absent.inj hv⟩
    | cons code l =>
      rw [List.length_cons] at hfuel
      rw [walk.eq_def] at hwalk
      rw [List.cons_append, List.length_cons, scanOptions.eq_def]
      dsimp only at hwalk ⊢
      split at hwalk
      · next hend =>
        cases hwalk
        rw [if_pos hend]
        exact ⟨overload, rfl, fun v hv => Scan.absent.inj hv⟩
      next hend =>
      rw [if_neg hend]
      split at hwalk
      · next hload =>
        rw [if_pos hload.2]
        split at hwalk
        · next n v l' =>
          refine ih hwalk ?_ (by simp only [List.length_cons] at hfuel; omega)
          rw [← List.drop_drop, hmem]
          rfl
        · cases hwalk
      next hload =>
      rw [if_neg fun h => hload ⟨rfl, h⟩]
      split at hwalk
      · next ho =>
        cases hwalk
        rw [if_pos ho]
        refine ⟨overload, ?_, fun v hv => Scan.noConfusion hv⟩
        rw [Scan.offset?, Option.map_some, hmem, List.cons_append]
      next ho =>
      rw [if_neg ho]
      split at hwalk
      · next n l' =>
        have hleft : (n :: l').length - (1 + n.toNat) = (l'.drop n.toNat).length := by
          rw [List.length_cons, List.length_drop]
          omega
        rw [List.cons_append]
        dsimp only
        rw [hleft]
        obtain hcut | hn := Nat.lt_or_ge l'.length n.toNat
        · -- The length leads out of the options.
          rw [List.drop_eq_nil_of_le hcut.le, walk_nil] at hwalk
          rw [List.drop_eq_nil_of_le hcut.le]
          cases hwalk
          exact ⟨overload, scanOptions_zero _, fun v hv => Scan.absent.inj hv⟩
        · rw [List.drop_append_of_le_length hn]
          refine ih hwalk (drop_option hmem hn) ?_
          rw [List.length_cons] at hfuel
          rw [List.length_drop]
          omega
      · cases hwalk

/-- And where the one over an overloaded field does. -/
theorem scanField_of_walk (hwalk : walk false o offset overload l = .ok r)
    (hmem : mem.drop offset = l ++ t)
    (hfuel : l.length ≤ fuel) : scanField o fuel l.length (l ++ t) = some
    (r.offset?.map mem.drop) := by
  induction fuel generalizing offset l with
  | zero =>
    obtain rfl := List.length_eq_zero_iff.mp (Nat.le_zero.mp hfuel)
    rw [walk_nil] at hwalk
    cases hwalk
    rfl
  | succ fuel ih =>
    cases l with
    | nil =>
      rw [walk_nil] at hwalk
      cases hwalk
      rfl
    | cons code l =>
      rw [List.length_cons] at hfuel
      rw [walk.eq_def] at hwalk
      rw [List.cons_append, List.length_cons, scanField.eq_def]
      dsimp only at hwalk ⊢
      rw [if_neg fun h : (false : Bool) = true ∧
        code = DHCP_OPTION_OVERLOAD => Bool.false_ne_true h.1] at hwalk
      split at hwalk
      · next hend =>
        cases hwalk
        rw [if_pos hend]
        rfl
      next hend =>
      rw [if_neg hend]
      split at hwalk
      · next ho =>
        cases hwalk
        rw [if_pos ho, Scan.offset?, Option.map_some, hmem, List.cons_append]
      next ho =>
      rw [if_neg ho]
      split at hwalk
      · next n l' =>
        have hleft : (n :: l').length - (1 + n.toNat) = (l'.drop n.toNat).length := by
          rw [List.length_cons, List.length_drop]
          omega
        rw [List.cons_append]
        dsimp only
        rw [hleft]
        obtain hcut | hn := Nat.lt_or_ge l'.length n.toNat
        · rw [List.drop_eq_nil_of_le hcut.le, walk_nil] at hwalk
          rw [List.drop_eq_nil_of_le hcut.le]
          cases hwalk
          exact scanField_zero _
        · rw [List.drop_append_of_le_length hn]
          refine ih hwalk (drop_option hmem hn) ?_
          rw [List.length_cons] at hfuel
          rw [List.length_drop]
          omega
      · cases hwalk

/-- In a field of the message. -/
theorem scanField_of_search {p : Option Ptr} {len : ℕ} (msgAfter optionsAfter : Mem)
    (hlen : offset + len ≤ u.msg_in.length) (hmax : len ≤ fileLen + snameLen)
    (h : searchField u o offset len = .ok p) :
    scanField o len len ((u.toReply msgAfter optionsAfter).msg_in.drop offset) =
      some (p.map (u.toReply msgAfter optionsAfter).at) := by
  rw [searchField_eq hmax] at h
  cases hwalk : walk false o 0 0 (u.field offset len) with
  | error e =>
    rw [hwalk] at h
    cases h
  | ok r =>
    rw [hwalk] at h
    have hfield : (u.field offset len).length = len := by
      rw [Unfolded.field, List.length_take_of_le]
      rw [List.length_drop]
      omega
    have hmem : (u.toReply msgAfter optionsAfter).msg_in.drop offset =
        u.field offset len ++ ((u.msg_in.drop offset).drop len ++ msgAfter) := by
      rw [Unfolded.field, ← List.append_assoc, List.take_append_drop]
      exact List.drop_append_of_le_length (Nat.le_of_add_right_le hlen)
    have hscan := scanField_of_walk (t := (u.msg_in.drop offset).drop len ++ msgAfter)
      hwalk hmem hfield.le
    rw [hfield, ← hmem] at hscan
    rw [hscan, ← Except.ok.inj h, Option.map_map]
    congr 2
    funext k
    exact List.drop_drop

/-- Where the checked search comes to an end, the client finds the same. -/
theorem dhcpGetOptionPtr_eq {p : Option Ptr} (msgAfter optionsAfter : Mem)
    (hmsg : u.msg_in.length = msgLen)
    (hsize : u.options_in.length + 257 ≤ 2^16) (h : dhcpGetOptionPtrChecked u o = .ok p) :
    dhcpGetOptionPtr (u.toReply msgAfter optionsAfter) o =
      some (p.map (u.toReply msgAfter optionsAfter).at) := by
  rw [dhcpGetOptionPtrChecked_eq hsize] at h
  cases hwalk : walk true o 0 0 u.options_in with
  | error e =>
    rw [hwalk] at h
    cases h
  | ok r =>
    rw [hwalk] at h
    rw [dhcpGetOptionPtr]
    split
    · next hempty =>
      have hnil : u.options_in = [] := List.length_eq_zero_iff.mp hempty
      rw [hnil, walk_nil] at hwalk
      cases hwalk
      cases h
      rfl
    · have hmem : (u.options_in ++ optionsAfter).drop 0 = u.options_in ++ optionsAfter :=
        List.drop_zero
      obtain ⟨overload', hscan, hover⟩ := scanOptions_of_walk hwalk hmem le_rfl
      have hscan : scanOptions o (u.toReply msgAfter optionsAfter).options_in_len
          (u.toReply msgAfter optionsAfter).options_in_len
          (u.toReply msgAfter optionsAfter).options_in 0 = _ :=
        hscan
      rw [hscan]
      cases r with
      | found k =>
        cases h
        rfl
      | absent overload =>
        obtain rfl := hover overload rfl
        have h : searchOverloaded u o overload' = .ok p := h
        rw [searchOverloaded] at h
        dsimp only [bind, Option.bind, Scan.offset?, Option.map_none, Option.isSome_none]
        rw [if_neg Bool.false_ne_true]
        have hfile : fileOffset + fileLen ≤ u.msg_in.length := hmsg ▸ by decide
        have hsname : snameOffset + snameLen ≤ u.msg_in.length := hmsg ▸ by decide
        have hboth : snameOffset + (fileLen + snameLen) ≤ u.msg_in.length := hmsg ▸ by decide
        split at h
        · next hzero =>
          cases h
          rw [if_pos hzero]
          rfl
        next hzero =>
        rw [if_neg hzero]
        split at h
        · next hone =>
          rw [if_pos hone]
          exact scanField_of_search msgAfter optionsAfter hfile (by decide) h
        next hone =>
        rw [if_neg hone]
        split at h
        · next htwo =>
          rw [if_pos htwo]
          exact scanField_of_search msgAfter optionsAfter hsname (by decide) h
        · next htwo =>
          rw [if_neg htwo]
          exact scanField_of_search msgAfter optionsAfter hboth le_rfl h

/-- The client unfolds a reply to the same blocks. -/
theorem dhcpUnfoldReply_eq {blocks : Blocks} {s : Heap} {p : ℕ} {l : List ℕ} {u : Option Unfolded}
    (hc : ChainAt s (some p) l) (len : ℕ) (msgAfter optionsAfter : Mem)
    (h : dhcpUnfoldReplyChain blocks s p = .ok u) :
    dhcpUnfoldReply ⟨s.packet l, len, blocks.options, blocks.msg, optionsAfter, msgAfter⟩ =
      .ok (u.map fun u => u.toReply msgAfter optionsAfter) := by
  rw [dhcpUnfoldReplyChain_eq hc] at h
  rw [dhcpUnfoldReply]
  dsimp only
  split at h
  · next hmem =>
    cases h
    rw [if_pos hmem]
    rfl
  next hoptions =>
  rw [if_neg hoptions]
  split at h
  · next hmem =>
    cases h
    rw [if_pos hmem]
    rfl
  next hmsg =>
  rw [if_neg hmsg]
  split at h
  · next hlen =>
    cases h
    have hsize : (s.packet l).length - msgLen = ((s.packet l).drop msgLen).length :=
      List.length_drop.symm
    rw [lwipAssert, if_pos hlen, hsize]
    rfl
  · cases h

end Client

/-! ## Two replies -/

/-- Octets in two pbufs. -/
def chainOf (first rest : Mem) : Heap where
  pbufs
    | 0 => some { next := some 1, payload := 0, tot_len := first.length + rest.length,
                  len := first.length, type := .RAM, mem := fun k => first.getD k 0,
                  size := first.length }
    | 1 => some { payload := 0, tot_len := rest.length, len := rest.length, type := .RAM
                  mem := fun k => rest.getD k 0, size := rest.length }
    | _ => none
  fresh := 2

/-- The example is a chain of two pbufs. -/
theorem chainOf_chainAt (first rest : Mem) : ChainAt (chainOf first rest) (some 0) [0, 1] :=
  .cons rfl (Nat.zero_lt_succ _) rfl (.cons rfl (Nat.lt_succ_self _) rfl .nil)

/-- The octets of the two pbufs. -/
theorem packet_chainOf (first rest : Mem) : (chainOf first rest).packet [0, 1] = first ++ rest := by
  have hbytes : ∀ l : Mem, (List.range l.length).map (fun k => l.getD (0 + k) 0) = l := by
    intro l
    refine List.ext_getElem (by simp) fun k hk hk' => ?_
    rw [List.getElem_map, List.getElem_range, Nat.zero_add, List.getD_eq_getElem]
  have hfirst : (chainOf first rest).bytesOf 0 = first := hbytes first
  have hrest : (chainOf first rest).bytesOf 1 = rest := hbytes rest
  rw [Heap.packet, List.flatMap_cons, List.flatMap_cons, hfirst, hrest, List.flatMap_nil,
    List.append_nil]

/-- An offer, with the options in the second pbuf. -/
def exampleOffer : Mem := [53, 1, 2, 54, 4, 10, 0, 0, 1, 255]

/-- The example is a plain field. -/
theorem exampleOffer_plain (o : UInt8) : Plain true false o exampleOffer := by
  have hother : ∀ code : UInt8, code ≠ DHCP_OPTION_OVERLOAD →
      ¬ ((true : Bool) ∧ code = DHCP_OPTION_OVERLOAD) :=
    fun _ hne h => hne h.2
  by_cases htype : o = 53
  · rw [htype]
    exact .found (hother _ (by decide)) (by decide)
  refine .skip (by decide) (by decide) (hother _ (by decide)) (Ne.symm htype) ?_
  by_cases hserver : o = 54
  · rw [hserver]
    exact .found (hother _ (by decide)) (by decide)
  exact .skip (by decide) (by decide) (hother _ (by decide)) (Ne.symm hserver) (.stop [])

/-- The options of the example. -/
theorem exampleOffer_options :
    optionsOf 0 exampleOffer = [⟨0, 53, [2]⟩, ⟨3, 54, [10, 0, 0, 1]⟩] := by
  have hserver : optionsOf 3 [54, 4, 10, 0, 0, 1, 255] = [⟨3, 54, [10, 0, 0, 1]⟩] :=
    (optionsOf_cons (by decide) (by decide) (by decide)).trans (congrArg (List.cons _) tlvs_stop)
  exact (optionsOf_cons (by decide) (by decide) (by decide)).trans (congrArg (List.cons _) hserver)

/-- The reply of the example is read as it was sent. -/
theorem dhcpReply_right_exampleOffer :
    ReplyRight {} (chainOf (List.replicate 240 0) exampleOffer) 0 .SELECTING
    {o | o ≠ DHCP_OPTION_END ∧ o ≠ DHCP_OPTION_PAD} := by
  have hmsg : (List.replicate 240 (0 : UInt8)).length = msgLen := List.length_replicate
  have hpacket := packet_chainOf (List.replicate 240 0) exampleOffer
  have hlen : ((chainOf (List.replicate 240 0) exampleOffer).packet [0, 1]).length = 250 := by
    rw [hpacket, List.length_append, hmsg]
    rfl
  have hunfold : unfolded ((chainOf (List.replicate 240 0) exampleOffer).packet [0, 1]) =
      ⟨List.replicate 240 0, exampleOffer⟩ := by
    rw [hpacket, unfolded, ← hmsg, List.take_left, List.drop_left]
  have hload : Unfolded.overload ⟨List.replicate 240 0, exampleOffer⟩ = 0 := by
    rw [Unfolded.overload, exampleOffer_options]
    rfl
  have hplain : ∀ o, PlainReply ⟨List.replicate 240 0, exampleOffer⟩ o :=
    fun o => ⟨exampleOffer_plain o, fun _ => .zero hload⟩
  have hfound : ∀ o p, o ≠ DHCP_OPTION_END → o ≠ DHCP_OPTION_PAD →
      dhcpGetOptionPtrChecked ⟨List.replicate 240 0, exampleOffer⟩ o = .ok p →
      Unfolded.option ⟨List.replicate 240 0, exampleOffer⟩ o = p := by
    intro o p hend hpad h
    rw [(hplain o).search_eq (by decide) hend hpad] at h
    exact Except.ok.inj h
  have hread : ∀ o ∈ readOptions, o ≠ DHCP_OPTION_END ∧ o ≠ DHCP_OPTION_PAD := by decide +kernel
  have hlong : msgLen ≤ ((chainOf (List.replicate 240 0) exampleOffer).packet [0, 1]).length := by
    rw [hlen]
    decide
  refine (dhcpReply_right {} _ 0 [0, 1] (chainOf_chainAt _ _) (by omega) .SELECTING _ (fun _ h => h)
    hread).1 (.inr (.inr ⟨hlong, fun o _ => hunfold ▸ hplain o, ?_⟩))
  rw [hunfold]
  intro o ho p hp
  rw [hfound _ (some (.options 0)) (by decide) (by decide) (by decide)] at ho
  have hlooks : looksFor ⟨List.replicate 240 0, exampleOffer⟩ .SELECTING (some (.options 0)) =
      [DHCP_OPTION_MESSAGE_TYPE, DHCP_OPTION_SERVER_ID] := by decide
  rw [hlooks] at ho
  obtain rfl | rfl : o = DHCP_OPTION_MESSAGE_TYPE ∨ o = DHCP_OPTION_SERVER_ID := by simpa using ho
  · rw [hfound _ (some (.options 0)) (by decide) (by decide) (by decide)] at hp
    cases hp
    decide
  · rw [hfound _ (some (.options 3)) (by decide) (by decide) (by decide)] at hp
    cases hp
    decide

/-- A reply of 44 octets fails the assertion. Behind one pad, the message type is not found; and of
an option without a length octet the search reads what is behind the options. -/
theorem dhcpReply_short_asserts :
    let octets : Mem := 2 :: List.replicate 43 0
    let c : Client := { netif := { hwaddr := List.replicate 6 0 } }
    let padded : Unfolded := ⟨List.replicate 240 0, [0, 53, 1, 2, 255]⟩
    let cut : Unfolded := ⟨List.replicate 240 0, [12]⟩
    Datagram.isReply { p := octets, len := 44 } c = true ∧
      (chainOf octets []).packet [0, 1] = octets ∧
      dhcpUnfoldReplyChain {} (chainOf octets []) 0 = .error .assertion ∧
      (∀ state O, ¬ ReplyRight {} (chainOf octets []) 0 state O) ∧
      dhcpGetOptionPtrChecked padded DHCP_OPTION_MESSAGE_TYPE = .ok none ∧
      padded.option DHCP_OPTION_MESSAGE_TYPE = some (.options 1) ∧
      dhcpGetOptionPtrChecked cut DHCP_OPTION_MESSAGE_TYPE = .error .outside := by
  intro octets c padded cut
  have hpacket : (chainOf octets []).packet [0, 1] = octets := by
    rw [packet_chainOf, List.append_nil]
  have hlen : octets.length = 44 := by rw [List.length_cons, List.length_replicate]
  have hunfold : dhcpUnfoldReplyChain {} (chainOf octets []) 0 = .error .assertion := by
    rw [dhcpUnfoldReplyChain_eq (chainOf_chainAt octets []), hpacket, hlen]
    decide
  have hoptions : optionsOf 0 padded.options_in = [⟨1, 53, [2]⟩] :=
    (tlvs_pad (by decide)).trans
      ((optionsOf_cons (by decide) (by decide) (by decide)).trans
      (congrArg (List.cons _) tlvs_stop))
  have hfirst : padded.option DHCP_OPTION_MESSAGE_TYPE = some (.options 1) := by
    rw [Unfolded.option, hoptions]
    rfl
  refine ⟨by decide, hpacket, hunfold, fun state O => ?_, by decide, hfirst, by decide⟩
  rintro ⟨r, hr, -⟩
  rw [hunfold] at hr
  cases hr

end Lwip.Dhcp
