import Lwip.Tcp.Process
import Mathlib.Data.List.Basic
import Mathlib.Tactic.Common

/-!
# The options of a TCP header

`tcp_parseopt`, over the bytes behind the fixed part of the header, with the offsets of the bytes
that it reads. `options` is the parse of RFC 793, which says what the options of an area are.
`Regular` says of an area where the loop does as this parse: it is the exact condition for
`tcp_parseopt` to read inside the area and to leave the last MSS option in the pcb
(`parsesRight_iff`).
-/

namespace Lwip.Tcp

/-- The fields of a pcb that `tcp_parseopt` reads and writes; the last three are there if timestamps
are compiled in, with `TF_TIMESTAMP` as `timestamp`. -/
structure OptPcb where
  mss : ℕ
  ts_lastacksent : Serial := 0
  ts_recent : BitVec 32 := 0
  timestamp : Bool := false
  deriving DecidableEq, Repr

/-- What `tcp_parseopt` reads of the segment beside its options. -/
structure OptSeg where
  syn : Bool
  seqno : Serial
  tcplen : ℕ
  deriving DecidableEq, Repr

/-- The limit of the MSS to the configured `TCP_MSS`, which prevents a division by zero. -/
def limitMss (TCP_MSS mss : ℕ) : ℕ := if mss > TCP_MSS ∨ mss = 0 then TCP_MSS else mss

/-- What a timestamp option does. -/
def OptPcb.stamp (pcb : OptPcb) (seg : OptSeg) (tsval : BitVec 32) : OptPcb :=
  if seg.syn then { pcb with ts_recent := tsval, timestamp := true }
  else if Serial.between pcb.ts_lastacksent seg.seqno (seg.seqno.adv seg.tcplen) then
    { pcb with ts_recent := tsval }
  else pcb

/-- `(b0 << 24) | (b1 << 16) | (b2 << 8) | b3`, which is `ntohl` of the word. -/
def tsvalOf (b0 b1 b2 b3 : UInt8) : BitVec 32 :=
  BitVec.ofNat 32 (((b0.toNat * 256 + b1.toNat) * 256 + b2.toNat) * 256 + b3.toNat)

section Code

variable (TCP_MSS : ℕ) (timestamps : Bool) (seg : OptSeg) (opts : ℕ → UInt8) (max_c : ℕ)

/-- The loop of `tcp_parseopt`, with the offsets it has read, the latest first; `none` if the rounds
run out. As `max_c` is at most 40 and a step at most 255, the 16-bit `c` does not wrap. -/
def tcpParseoptLoop : (rounds : ℕ) → (c : ℕ) → OptPcb → List ℕ → Option (OptPcb × List ℕ)
  | 0, _, _, _ => none
  | rounds + 1, c, pcb, reads =>
    if c < max_c then
      let reads := c :: reads
      -- End of options.
      if opts c = 0x00 then some (pcb, reads)
      -- NOP option.
      else if opts c = 0x01 then tcpParseoptLoop rounds (c + 1) pcb reads
      else
        let reads := (c + 1) :: reads
        if opts c = 0x02 then
          if opts (c + 1) ≠ 0x04 ∨ c + 0x04 > max_c then some (pcb, reads)
          else
            let mss := (opts (c + 2)).toNat * 256 + (opts (c + 3)).toNat
            tcpParseoptLoop rounds (c + 0x04) { pcb with mss := limitMss TCP_MSS mss }
              ((c + 3) :: (c + 2) :: reads)
        else if timestamps ∧ opts c = 0x08 then
          if opts (c + 1) ≠ 0x0A ∨ c + 0x0A > max_c then some (pcb, reads)
          else
            let tsval := tsvalOf (opts (c + 2)) (opts (c + 3)) (opts (c + 4)) (opts (c + 5))
            tcpParseoptLoop rounds (c + 0x0A) (pcb.stamp seg tsval)
              ((c + 5) :: (c + 4) :: (c + 3) :: (c + 2) :: reads)
        -- If the length field is zero, the options are malformed.
        else if opts (c + 1) = 0 then some (pcb, reads)
        else tcpParseoptLoop rounds (c + (opts (c + 1)).toNat) pcb reads
    else some (pcb, reads)

/-- The size of the option area for a header of `hdrlen` words. -/
def maxC (hdrlen : Fin 16) : ℕ := (hdrlen - 5 : ℕ) * 4

/-- `tcp_parseopt`, for a header of `hdrlen` words, with all that it reads and writes. -/
def tcpParseoptAt (hdrlen : Fin 16) (pcb : OptPcb) : Option (OptPcb × List ℕ) :=
  if hdrlen.val > 5 then
    tcpParseoptLoop TCP_MSS timestamps seg opts (maxC hdrlen) (maxC hdrlen + 1) 0 pcb []
  else some (pcb, [])

end Code

/-! ## The parse of RFC 793 -/

/-- An option with a length: its kind, and its data. -/
structure TcpOption where
  kind : UInt8
  data : List UInt8
  deriving DecidableEq, Repr

/-- The value of a maximum segment size option: the kind is 2 and the length 4. -/
def TcpOption.mss? (opt : TcpOption) : Option ℕ :=
  match opt.data with
  | [hi, lo] => if opt.kind = 0x02 then some (hi.toNat * 256 + lo.toNat) else none
  | _ => none

/-- The options with a length, from left to right. The end of the option list stops the parse, as
does a length below 2 or one past the end. -/
def options : List UInt8 → List TcpOption
  | [] => []
  | kind :: l =>
    if kind = 0x00 then []
    else if kind = 0x01 then options l
    else
      match l with
      | [] => []
      | len :: l =>
        if len.toNat < 2 ∨ l.length < len.toNat - 2 then []
        else ⟨kind, l.take (len.toNat - 2)⟩ :: options (l.drop (len.toNat - 2))
termination_by l => l.length
decreasing_by
  all_goals simp only [List.length_cons, List.length_drop]
  all_goals omega

/-- The limit of the last of the MSS options, or `mss` if there is none. -/
def lastMss (TCP_MSS mss : ℕ) (opts : List TcpOption) : ℕ :=
  match (opts.filterMap TcpOption.mss?).getLast? with
  | some v => limitMss TCP_MSS v
  | none => mss

/-- The bytes of the option area from the offset `c` on. -/
def areaFrom (opts : ℕ → UInt8) (c n : ℕ) : List UInt8 := (List.range' c n).map opts

/-- `tcp_parseopt` ends, it has read only bytes of the area, and the pcb has the last MSS option of
the area. -/
def ParsesRight (TCP_MSS : ℕ) (timestamps : Bool) (seg : OptSeg) (opts : ℕ → UInt8)
    (hdrlen : Fin 16) (pcb : OptPcb) : Prop :=
  ∃ pcb' reads, tcpParseoptAt TCP_MSS timestamps seg opts hdrlen pcb = some (pcb', reads) ∧
    (∀ c ∈ reads, c < maxC hdrlen) ∧
    pcb'.mss = lastMss TCP_MSS pcb.mss (options (areaFrom opts 0 (maxC hdrlen)))

/-! ## Where the loop does as this parse -/

/-- The only length that the loop accepts for an option of this kind. -/
def lengthOf (timestamps : Bool) (kind : UInt8) : Option ℕ :=
  if kind = 0x02 then some 4 else if timestamps ∧ kind = 0x08 then some 10 else none

/-- An area that the loop reads as the parse does, from `mss` on. With `want`, the parse has stopped
in front of it, and the loop has to come back to this value. -/
def Regular (TCP_MSS : ℕ) (timestamps : Bool) (want : Option ℕ) (mss : ℕ) : List UInt8 → Prop
  | [] => want.getD mss = mss
  | kind :: l =>
    if kind = 0x00 then want.getD mss = mss
    else if kind = 0x01 then Regular TCP_MSS timestamps want mss l
    else
      match l with
      -- The length byte lies behind the area.
      | [] => False
      | len :: l =>
        match lengthOf timestamps kind with
        | some n =>
          if len.toNat = n then
            if l.length < n - 2 then want.getD mss = mss
            else
              Regular TCP_MSS timestamps want
                (lastMss TCP_MSS mss [⟨kind, l.take (n - 2)⟩]) (l.drop (n - 2))
          -- The loop stops at a length that it does not accept, and the parse may go on.
          else if len.toNat < 2 ∨ l.length < len.toNat - 2 then want.getD mss = mss
          else want.getD (lastMss TCP_MSS mss (options (l.drop (len.toNat - 2)))) = mss
        | none =>
          if len = 0 then want.getD mss = mss
          -- The parse stops at a length of 1, and the loop goes on.
          else if len = 1 then Regular TCP_MSS timestamps (some (want.getD mss)) mss l
          else if l.length < len.toNat - 2 then want.getD mss = mss
          else Regular TCP_MSS timestamps want mss (l.drop (len.toNat - 2))
termination_by l => l.length
decreasing_by
  all_goals simp only [List.length_cons, List.length_drop]
  all_goals omega

/-! ## The loop beside the parse -/

section Area

variable {opts : ℕ → UInt8} {c n k : ℕ}

/-- An empty area has no bytes. -/
theorem areaFrom_zero : areaFrom opts c 0 = [] := rfl

/-- The first byte of an area, and the rest. -/
theorem areaFrom_succ : areaFrom opts c (n + 1) = opts c :: areaFrom opts (c + 1) n := by
  rw [areaFrom, List.range'_succ, List.map_cons, areaFrom]

/-- An area has as many bytes as it is long. -/
@[simp] theorem length_areaFrom : (areaFrom opts c n).length = n := by
  rw [areaFrom, List.length_map, List.length_range']

/-- What is behind `k` bytes of an area is an area. -/
theorem drop_areaFrom (k : ℕ) : (areaFrom opts c n).drop k = areaFrom opts (c + k) (n - k) := by
  induction k generalizing c n with
  | zero => simp
  | succ k ih =>
    cases n with
    | zero => simp [areaFrom_zero]
    | succ n =>
      rw [areaFrom_succ, List.drop_succ_cons, ih, Nat.succ_sub_succ]
      congr 1
      omega

end Area

section Parse

variable {TCP_MSS mss : ℕ} {l : List UInt8} {kind len : UInt8}

/-- Without an option the MSS stays. -/
theorem lastMss_nil : lastMss TCP_MSS mss [] = mss := rfl

/-- The options behind one come after it. -/
theorem lastMss_cons (opt : TcpOption) (opts : List TcpOption) :
    lastMss TCP_MSS mss (opt :: opts) = lastMss TCP_MSS (lastMss TCP_MSS mss [opt]) opts := by
  unfold lastMss
  cases hopt : opt.mss? with
  | none => simp [hopt]
  | some v =>
    simp only [List.filterMap_cons, hopt, List.filterMap_nil, List.getLast?_singleton]
    rw [List.getLast?_cons]
    cases (opts.filterMap TcpOption.mss?).getLast? <;> rfl

/-- The end of the options ends the parse. -/
theorem options_end : options (0x00 :: l) = [] := by
  rw [options.eq_def]
  exact if_pos rfl

/-- A NOP is skipped. -/
theorem options_nop : options (0x01 :: l) = options l := by
  rw [options.eq_def]
  exact (if_neg (by decide)).trans (if_pos rfl)

/-- The parse stops at a malformed option. -/
theorem options_malformed (h₀ : kind ≠ 0x00) (h₁ : kind ≠ 0x01)
    (h : len.toNat < 2 ∨ l.length < len.toNat - 2) : options (kind :: len :: l) = [] := by
  rw [options, if_neg h₀, if_neg h₁]
  exact if_pos h

/-- An option, and the options behind it. -/
theorem options_cons (h₀ : kind ≠ 0x00) (h₁ : kind ≠ 0x01)
    (h : ¬ (len.toNat < 2 ∨ l.length < len.toNat - 2)) : options (kind :: len :: l) =
      ⟨kind, l.take (len.toNat - 2)⟩ :: options (l.drop (len.toNat - 2)) := by
  rw [options, if_neg h₀, if_neg h₁]
  exact if_neg h

/-- A NOP does not matter for the loop. -/
theorem regular_nop {timestamps : Bool} {want : Option ℕ} :
    Regular TCP_MSS timestamps want mss (0x01 :: l) ↔ Regular TCP_MSS timestamps want mss l := by
  rw [Regular.eq_def]
  exact Iff.of_eq ((if_neg (by decide)).trans (if_pos rfl))

/-- Only an option of kind 2 with two bytes of data sets the MSS. -/
theorem lastMss_other {data : List UInt8} (h : kind = 0x02 → data.length ≠ 2) :
    lastMss TCP_MSS mss [⟨kind, data⟩] = mss := by
  have hnone : TcpOption.mss? ⟨kind, data⟩ = none := by
    unfold TcpOption.mss?
    split
    · next hi lo hdata => exact if_neg fun hkind => h hkind (congrArg List.length hdata)
    · rfl
  simp [lastMss, hnone]

/-- The MSS option sets the MSS. -/
theorem lastMss_single (hi lo : UInt8) :
    lastMss TCP_MSS mss [⟨0x02, [hi, lo]⟩] = limitMss TCP_MSS (hi.toNat * 256 + lo.toNat) := rfl

end Parse

/-- A timestamp does not touch the MSS. -/
theorem OptPcb.stamp_mss (pcb : OptPcb) (seg : OptSeg) (tsval : BitVec 32) :
    (pcb.stamp seg tsval).mss = pcb.mss := by
  unfold OptPcb.stamp
  split
  · rfl
  · split <;> rfl

section Loop

variable {TCP_MSS : ℕ} {timestamps : Bool} {seg : OptSeg} {opts : ℕ → UInt8} {max_c : ℕ}

variable (TCP_MSS timestamps opts max_c) in
/-- The loop ends with `r`, and has read inside the area and found `want`, or else what the parse
finds from `c` on, exactly if the area is regular from there. -/
def LoopRight (want : Option ℕ) (c mss : ℕ) (r : Option (OptPcb × List ℕ)) : Prop :=
  ∃ pcb' reads', r = some (pcb', reads') ∧
    ((∀ i ∈ reads', i < max_c) ∧
        pcb'.mss = want.getD (lastMss TCP_MSS mss (options (areaFrom opts c (max_c - c)))) ↔
      Regular TCP_MSS timestamps want mss (areaFrom opts c (max_c - c)))

/-- The loop ends at `c`, where the parse may go on to `target`. -/
theorem LoopRight.of_end {want : Option ℕ} {c target : ℕ} {pcb : OptPcb} {reads : List ℕ}
    (hreads : ∀ i ∈ reads, i < max_c)
    (htarget : want.getD (lastMss TCP_MSS pcb.mss (options (areaFrom opts c (max_c - c)))) = target)
    (hregular : Regular TCP_MSS timestamps want pcb.mss (areaFrom opts c (max_c - c)) ↔
    target = pcb.mss) :
    LoopRight TCP_MSS timestamps opts max_c want c pcb.mss (some (pcb, reads)) := by
  refine ⟨pcb, reads, rfl, ?_⟩
  rw [htarget, hregular]
  exact ⟨fun h => h.2.symm, fun h => ⟨hreads, h.symm⟩⟩

/-- The loop goes on to `c'`, and the parse with it. -/
theorem LoopRight.of_next {want want' : Option ℕ} {c c' mss mss' : ℕ} {r : Option (OptPcb × List ℕ)}
    (h : LoopRight TCP_MSS timestamps opts max_c want' c' mss' r)
    (htarget : want.getD (lastMss TCP_MSS mss (options (areaFrom opts c (max_c - c)))) =
      want'.getD (lastMss TCP_MSS mss' (options (areaFrom opts c' (max_c - c')))))
    (hregular : Regular TCP_MSS timestamps want mss (areaFrom opts c (max_c - c)) ↔
      Regular TCP_MSS timestamps want' mss' (areaFrom opts c' (max_c - c'))) :
    LoopRight TCP_MSS timestamps opts max_c want c mss r := by
  obtain ⟨pcb', reads', hr, hiff⟩ := h
  refine ⟨pcb', reads', hr, ?_⟩
  rw [htarget, hregular]
  exact hiff

/-- At the last byte of the area, the loop looks for a length behind it, and ends. -/
theorem tcpParseoptLoop_last {rounds c : ℕ} {pcb : OptPcb} {reads : List ℕ} (hc : c + 1 = max_c)
    (h₀ : opts c ≠ 0x00) (h₁ : opts c ≠ 0x01) :
    tcpParseoptLoop TCP_MSS timestamps seg opts max_c (rounds + 2) c pcb reads =
      some (pcb, (c + 1) :: c :: reads) := by
  rw [tcpParseoptLoop, if_pos (by omega), if_neg h₀, if_neg h₁]
  dsimp only
  split
  · exact if_pos (.inr (by omega))
  · split
    · exact if_pos (.inr (by omega))
    · split
      · rfl
      · next hlen =>
        have hpos : (opts (c + 1)).toNat ≠ 0 := fun h => hlen (UInt8.toNat_inj.mp h)
        rw [tcpParseoptLoop, if_neg (by omega)]

/-- An option that the loop accepts with one length only, and that has not this length inside the
area: both stop, or the loop alone. -/
theorem LoopRight.of_refused {want : Option ℕ} {c k : ℕ} {pcb : OptPcb} {reads : List ℕ}
    {rest : List UInt8}
    (hreads : ∀ i ∈ reads, i < max_c)
    (harea : areaFrom opts c (max_c - c) = opts c :: opts (c + 1) :: rest)
    (h₀ : opts c ≠ 0x00) (h₁ : opts c ≠ 0x01) (hk : lengthOf timestamps (opts c) = some k)
    (hfour : opts c = 0x02 → k = 4) (htwo : 2 ≤ k)
    (hrefused : (opts (c + 1)).toNat ≠ k ∨ rest.length < k - 2) :
    LoopRight TCP_MSS timestamps opts max_c want c pcb.mss (some (pcb, reads)) := by
  refine .of_end hreads rfl ?_
  rw [harea, Regular.eq_def]
  dsimp only
  rw [if_neg h₀, if_neg h₁, hk]
  dsimp only
  by_cases hlen : (opts (c + 1)).toNat = k
  · have hshort := hrefused.resolve_left (not_not_intro hlen)
    rw [if_pos hlen, if_pos hshort, options_malformed h₀ h₁ (.inr (by omega)), lastMss_nil]
  · rw [if_neg hlen]
    split
    · next hbad => rw [options_malformed h₀ h₁ hbad, lastMss_nil]
    · next hgood =>
      rw [options_cons h₀ h₁ hgood, lastMss_cons, lastMss_other]
      rintro htwo'
      rw [List.length_take]
      have := hfour htwo'
      omega

/-- An option of the length that the loop accepts: the parse has it too. -/
theorem LoopRight.of_accepted {want : Option ℕ} {c k mss : ℕ} {r : Option (OptPcb × List ℕ)}
    {rest : List UInt8} (harea : areaFrom opts c (max_c - c) = opts c :: opts (c + 1) :: rest)
    (hrest : rest = areaFrom opts (c + 2) (max_c - (c + 2)))
    (h₀ : opts c ≠ 0x00) (h₁ : opts c ≠ 0x01) (hk : lengthOf timestamps (opts c) = some k)
    (htwo : 2 ≤ k)
    (hlen : (opts (c + 1)).toNat = k) (hroom : c + k ≤ max_c)
    (h : LoopRight TCP_MSS timestamps opts max_c want (c + k)
      (lastMss TCP_MSS mss [⟨opts c, rest.take (k - 2)⟩]) r) :
    LoopRight TCP_MSS timestamps opts max_c want c mss r := by
  have hlength : rest.length = max_c - (c + 2) := by rw [hrest, length_areaFrom]
  have hdrop : rest.drop (k - 2) = areaFrom opts (c + k) (max_c - (c + k)) := by
    rw [hrest, drop_areaFrom]
    congr 1 <;> omega
  refine h.of_next ?_ ?_
  · rw [harea, options_cons h₀ h₁ (by omega), lastMss_cons, hlen, hdrop]
  · rw [harea, Regular.eq_def]
    dsimp only
    rw [if_neg h₀, if_neg h₁, hk]
    dsimp only
    rw [if_pos hlen, if_neg (by omega), hdrop]

/-- An option that the loop does not know: it goes on to the next, behind a length of 1 by
itself. -/
theorem LoopRight.of_unknown {want : Option ℕ} {c : ℕ} {mss : ℕ} {r : Option (OptPcb × List ℕ)}
    {rest : List UInt8} (harea : areaFrom opts c (max_c - c) = opts c :: opts (c + 1) :: rest)
    (hrest : rest = areaFrom opts (c + 2) (max_c - (c + 2)))
    (h₀ : opts c ≠ 0x00) (h₁ : opts c ≠ 0x01) (hk : lengthOf timestamps (opts c) = none)
    (htwo : opts c ≠ 0x02) (hlen : opts (c + 1) ≠ 0)
    (h : ∀ want, LoopRight TCP_MSS timestamps opts max_c want (c + (opts (c + 1)).toNat) mss r) :
    LoopRight TCP_MSS timestamps opts max_c want c mss r := by
  have hlength : rest.length = max_c - (c + 2) := by rw [hrest, length_areaFrom]
  have hpos : (opts (c + 1)).toNat ≠ 0 := fun h => hlen (UInt8.toNat_inj.mp h)
  have hregular : Regular TCP_MSS timestamps want mss (areaFrom opts c (max_c - c)) ↔
      if opts (c + 1) = 1 then Regular TCP_MSS timestamps (some (want.getD mss)) mss rest
      else if rest.length < (opts (c + 1)).toNat - 2 then want.getD mss = mss
      else Regular TCP_MSS timestamps want mss (rest.drop ((opts (c + 1)).toNat - 2)) := by
    rw [harea, Regular.eq_def]
    dsimp only
    rw [if_neg h₀, if_neg h₁, hk]
    exact Iff.of_eq (if_neg hlen)
  by_cases hone : opts (c + 1) = 1
  · have hone' : (opts (c + 1)).toNat = 1 := by rw [hone]; rfl
    have hnext : areaFrom opts (c + 1) (max_c - (c + 1)) = 0x01 :: rest := by
      obtain ⟨n, hn⟩ : ∃ n, max_c - c = n + 1 := ⟨max_c - c - 1, by
        have := congrArg List.length harea
        rw [length_areaFrom] at this
        simp only [List.length_cons] at this
        omega⟩
      rw [hn, areaFrom_succ] at harea
      have htail := (List.cons.inj harea).2
      rw [show max_c - (c + 1) = n by omega, htail, hone]
    have h' := h (some (want.getD mss))
    rw [hone'] at h'
    refine h'.of_next ?_ ?_
    · rw [harea, options_malformed h₀ h₁ (.inl (by omega)), lastMss_nil]
      rfl
    · rw [hregular, if_pos hone, hnext, regular_nop]
  · have htwo' : 2 ≤ (opts (c + 1)).toNat := by
      have : (opts (c + 1)).toNat ≠ 1 := fun h => hone (UInt8.toNat_inj.mp h)
      omega
    by_cases hshort : rest.length < (opts (c + 1)).toNat - 2
    · have hnil : areaFrom opts (c + (opts (c + 1)).toNat)
          (max_c - (c + (opts (c + 1)).toNat)) = [] := by
        rw [Nat.sub_eq_zero_of_le (by omega), areaFrom_zero]
      refine (h want).of_next ?_ ?_
      · rw [harea, options_malformed h₀ h₁ (.inr hshort), hnil, options]
      · rw [hregular, if_neg hone, if_pos hshort, hnil, Regular]
    · have hdrop : rest.drop ((opts (c + 1)).toNat - 2) =
          areaFrom opts (c + (opts (c + 1)).toNat) (max_c - (c + (opts (c + 1)).toNat)) := by
        rw [hrest, drop_areaFrom]
        congr 1 <;> omega
      refine (h want).of_next ?_ ?_
      · rw [harea, options_cons h₀ h₁ (by omega), lastMss_cons,
          lastMss_other (absurd · htwo), hdrop]
      · rw [hregular, if_neg hone, if_neg hshort, hdrop]

variable (TCP_MSS timestamps seg opts max_c) in
/-- The loop does as the parse does exactly in a regular area. The induction is on the rounds. -/
theorem tcpParseoptLoop_right (rounds : ℕ) :
    ∀ (c : ℕ) (pcb : OptPcb) (reads : List ℕ) (want : Option ℕ),
    max_c - c < rounds → (∀ i ∈ reads, i < max_c) →
    LoopRight TCP_MSS timestamps opts max_c want c pcb.mss
      (tcpParseoptLoop TCP_MSS timestamps seg opts max_c rounds c pcb reads) := by
  induction rounds with
  | zero => exact fun c pcb reads want h => absurd h (Nat.not_lt_zero _)
  | succ rounds ih =>
    intro c pcb reads want hrounds hreads
    by_cases hlast : c + 1 = max_c ∧ opts c ≠ 0x00 ∧ opts c ≠ 0x01
    · -- The length byte is not in the area.
      obtain ⟨hc, h₀, h₁⟩ := hlast
      obtain ⟨r, rfl⟩ : ∃ r, rounds = r + 1 := ⟨rounds - 1, by omega⟩
      rw [tcpParseoptLoop_last hc h₀ h₁]
      refine ⟨pcb, _, rfl, iff_of_false (fun h => ?_) ?_⟩
      · exact absurd (h.1 (c + 1) List.mem_cons_self) (by omega)
      · rw [show max_c - c = 0 + 1 by omega, areaFrom_succ, areaFrom_zero, Regular.eq_def]
        dsimp only
        rw [if_neg h₀, if_neg h₁]
        exact not_false
    unfold tcpParseoptLoop
    by_cases hc : c < max_c
    · rw [if_pos hc]
      -- The bytes at `c` and behind it.
      obtain ⟨n, hn⟩ : ∃ n, max_c - c = n + 1 := ⟨max_c - c - 1, by omega⟩
      have harea : areaFrom opts c (max_c - c) =
          opts c :: areaFrom opts (c + 1) (max_c - (c + 1)) := by
        rw [hn, areaFrom_succ]
        congr 2
        omega
      have hread : ∀ i ∈ c :: reads, i < max_c := List.forall_mem_cons.mpr ⟨hc, hreads⟩
      dsimp only
      by_cases h₀ : opts c = 0x00
      · rw [if_pos h₀]
        rw [h₀] at harea
        refine .of_end hread rfl ?_
        rw [harea, Regular.eq_def, options_end, lastMss_nil]
        exact Iff.of_eq (if_pos rfl)
      rw [if_neg h₀]
      by_cases h₁ : opts c = 0x01
      · rw [if_pos h₁]
        rw [h₁] at harea
        refine .of_next (ih (c + 1) pcb (c :: reads) want (by omega) hread) ?_ ?_
        · rw [harea, options_nop]
        · rw [harea, regular_nop]
      rw [if_neg h₁]
      have hlen : c + 1 < max_c := by
        rcases Nat.lt_or_ge (c + 1) max_c with h | h
        · exact h
        · exact absurd ⟨by omega, h₀, h₁⟩ hlast
      have hreads₂ : ∀ i ∈ (c + 1) :: c :: reads, i < max_c :=
        List.forall_mem_cons.mpr ⟨hlen, hread⟩
      obtain ⟨m, hm⟩ : ∃ m, max_c - (c + 1) = m + 1 := ⟨max_c - (c + 1) - 1, by omega⟩
      generalize hrest : areaFrom opts (c + 2) (max_c - (c + 2)) = rest
      have hbytes : areaFrom opts c (max_c - c) = opts c :: opts (c + 1) :: rest := by
        rw [harea, hm, areaFrom_succ, ← hrest]
        congr 3
        omega
      have hlength : rest.length = max_c - (c + 2) := by rw [← hrest, length_areaFrom]
      by_cases htwo : opts c = 0x02
      · have hk : lengthOf timestamps (opts c) = some 4 := if_pos htwo
        rw [if_pos htwo]
        split
        · next hbad =>
          refine .of_refused hreads₂ hbytes h₀ h₁ hk (fun _ => rfl) (by omega)
            (hbad.imp ?_ (by omega))
          exact fun hne h => hne (UInt8.toNat_inj.mp h)
        · next hgood =>
          push Not at hgood
          obtain ⟨hfour, hroom⟩ := hgood
          have hfour' : (opts (c + 1)).toNat = 4 := by rw [hfour]; rfl
          -- The value is in the two bytes behind the length.
          obtain ⟨m, hm⟩ : ∃ m, max_c - (c + 2) = m + 2 := ⟨max_c - (c + 2) - 2, by omega⟩
          have hdata : rest.take 2 = [opts (c + 2), opts (c + 3)] := by
            rw [← hrest, hm, areaFrom_succ, areaFrom_succ]
            rfl
          refine .of_accepted hbytes hrest.symm h₀ h₁ hk (by omega) hfour' hroom ?_
          rw [htwo, hdata, lastMss_single]
          refine ih (c + 4) { pcb with mss := _ } _ want (by omega) ?_
          exact List.forall_mem_cons.mpr ⟨by omega, List.forall_mem_cons.mpr ⟨by omega, hreads₂⟩⟩
      rw [if_neg htwo]
      by_cases height : timestamps = true ∧ opts c = 0x08
      · have hk : lengthOf timestamps (opts c) = some 10 := (if_neg htwo).trans (if_pos height)
        rw [if_pos height]
        split
        · next hbad =>
          refine .of_refused hreads₂ hbytes h₀ h₁ hk (absurd · htwo) (by omega)
            (hbad.imp ?_ (by omega))
          exact fun hne h => hne (UInt8.toNat_inj.mp h)
        · next hgood =>
          push Not at hgood
          obtain ⟨hten, hroom⟩ := hgood
          have hten' : (opts (c + 1)).toNat = 10 := by rw [hten]; rfl
          refine .of_accepted hbytes hrest.symm h₀ h₁ hk (by omega) hten' hroom ?_
          rw [lastMss_other (absurd · htwo), ← OptPcb.stamp_mss pcb seg]
          refine ih (c + 10) (pcb.stamp seg _) _ want (by omega) ?_
          exact List.forall_mem_cons.mpr ⟨by omega, List.forall_mem_cons.mpr ⟨by omega,
            List.forall_mem_cons.mpr ⟨by omega, List.forall_mem_cons.mpr ⟨by omega, hreads₂⟩⟩⟩⟩
      rw [if_neg height]
      have hk : lengthOf timestamps (opts c) = none := (if_neg htwo).trans (if_neg height)
      split
      · next hzero =>
        refine .of_end hreads₂ rfl ?_
        rw [hbytes, options_malformed h₀ h₁ (.inl (by rw [hzero]; decide)), lastMss_nil,
          Regular.eq_def]
        dsimp only
        rw [if_neg h₀, if_neg h₁, hk]
        exact Iff.of_eq (if_pos hzero)
      · next hzero =>
        have hpos : (opts (c + 1)).toNat ≠ 0 := fun h => hzero (UInt8.toNat_inj.mp h)
        exact .of_unknown hbytes hrest.symm h₀ h₁ hk htwo hzero fun want =>
          ih (c + (opts (c + 1)).toNat) pcb _ want (by omega) hreads₂
    · have hnil : areaFrom opts c (max_c - c) = [] := by
        rw [Nat.sub_eq_zero_of_le (Nat.le_of_not_lt hc), areaFrom_zero]
      rw [if_neg hc]
      refine .of_end hreads rfl ?_
      rw [hnil, Regular, options, lastMss_nil]

end Loop

/-- `tcp_parseopt` ends, reads inside the area and finds the last MSS option exactly if the area is
regular. -/
theorem parsesRight_iff (TCP_MSS : ℕ) (timestamps : Bool) (seg : OptSeg) (opts : ℕ → UInt8)
    (hdrlen : Fin 16) (pcb : OptPcb) :
    ParsesRight TCP_MSS timestamps seg opts hdrlen pcb ↔
      Regular TCP_MSS timestamps none pcb.mss (areaFrom opts 0 (maxC hdrlen)) := by
  unfold ParsesRight tcpParseoptAt
  by_cases h : hdrlen.val > 5
  · rw [if_pos h]
    obtain ⟨pcb', reads', hloop, hiff⟩ := tcpParseoptLoop_right TCP_MSS timestamps seg opts
      (maxC hdrlen) (maxC hdrlen + 1) 0 pcb [] none (by omega) nofun
    rw [Nat.sub_zero] at hiff
    rw [hloop, ← hiff]
    constructor
    · rintro ⟨_, _, heq, hright⟩
      cases heq
      exact hright
    · exact fun hright => ⟨pcb', reads', rfl, hright⟩
  · have hnil : maxC hdrlen = 0 := by
      unfold maxC
      omega
    rw [if_neg h, hnil, areaFrom_zero, Regular, options]
    exact iff_of_true ⟨pcb, [], rfl, nofun, rfl⟩ rfl

/-- Without timestamps, `tcp_parseopt` over the bytes of the area alone finds the same MSS. -/
theorem tcpParseoptLoop_mss (o : Opts) (seg : OptSeg) (opts : ℕ → UInt8) (max_c rounds : ℕ) :
    ∀ (fuel c : ℕ) (pcb : OptPcb) (reads : List ℕ), max_c - c < rounds → max_c - c ≤ fuel →
    ∃ pcb' reads', tcpParseoptLoop o.TCP_MSS false seg opts max_c rounds c pcb reads = some
    (pcb', reads') ∧
      pcb'.mss = tcpParseopt o fuel (areaFrom opts c (max_c - c)) pcb.mss := by
  induction rounds with
  | zero => exact fun fuel c pcb reads h => absurd h (Nat.not_lt_zero _)
  | succ rounds ih =>
    intro fuel c pcb reads hrounds hfuel
    unfold tcpParseoptLoop
    by_cases hc : c < max_c
    · obtain ⟨n, hn⟩ : ∃ n, max_c - c = n + 1 := ⟨max_c - c - 1, by omega⟩
      obtain ⟨fuel, rfl⟩ : ∃ f, fuel = f + 1 := ⟨fuel - 1, by omega⟩
      have hnext : max_c - (c + 1) = n := by omega
      rw [if_pos hc, hn, areaFrom_succ, tcpParseopt.eq_def]
      dsimp only
      by_cases h₀ : opts c = 0x00
      · rw [if_pos h₀, if_pos h₀]
        exact ⟨_, _, rfl, rfl⟩
      rw [if_neg h₀, if_neg h₀]
      by_cases h₁ : opts c = 0x01
      · rw [if_pos h₁, if_pos h₁]
        have := ih fuel (c + 1) pcb (c :: reads) (by omega) (by omega)
        rwa [hnext] at this
      rw [if_neg h₁, if_neg h₁, if_neg (show ¬ (false = true ∧ opts c = 0x08) from nofun)]
      by_cases htwo : opts c = 0x02
      · rw [if_pos htwo, if_pos htwo]
        -- Are there a length and a value in the area?
        rcases n with _ | _ | _ | n
        · rw [if_pos (.inr (by omega))]
          exact ⟨_, _, rfl, rfl⟩
        · rw [if_pos (.inr (by omega))]
          exact ⟨_, _, rfl, rfl⟩
        · rw [if_pos (.inr (by omega))]
          exact ⟨_, _, rfl, rfl⟩
        · rw [areaFrom_succ, areaFrom_succ, areaFrom_succ]
          dsimp only
          by_cases hfour : opts (c + 1) = 0x04
          · rw [if_neg (by rintro (h | h) <;> [exact h hfour; omega]), if_neg (not_not_intro hfour)]
            have := ih fuel (c + 4) { pcb with
              mss := limitMss o.TCP_MSS ((opts (c + 2)).toNat * 256 + (opts (c + 3)).toNat) }
              ((c + 3) :: (c + 2) :: (c + 1) :: c :: reads) (by omega) (by omega)
            rwa [show max_c - (c + 4) = n by omega] at this
          · rw [if_pos (.inl hfour), if_pos hfour]
            exact ⟨_, _, rfl, rfl⟩
      rw [if_neg htwo, if_neg htwo]
      -- The next option lies behind the length that is read, in the area or not.
      have hdrop : (areaFrom opts c (n + 1)).drop (opts (c + 1)).toNat =
          areaFrom opts (c + (opts (c + 1)).toNat) (max_c - (c + (opts (c + 1)).toNat)) := by
        rw [drop_areaFrom]
        congr 1
        omega
      rcases n with _ | n
      · split
        · exact ⟨_, _, rfl, rfl⟩
        · next hzero =>
          have hpos : (opts (c + 1)).toNat ≠ 0 := fun h => hzero (UInt8.toNat_inj.mp h)
          obtain ⟨pcb', reads', hloop, hmss⟩ := ih fuel (c + (opts (c + 1)).toNat) pcb
            ((c + 1) :: c :: reads) (by omega) (by omega)
          refine ⟨pcb', reads', hloop, hmss.trans ?_⟩
          rw [Nat.sub_eq_zero_of_le (by omega), areaFrom_zero]
          cases fuel <;> rfl
      · rw [areaFrom_succ] at hdrop ⊢
        rw [areaFrom_succ] at hdrop
        dsimp only
        split
        · exact ⟨_, _, rfl, rfl⟩
        · next hzero =>
          have hpos : (opts (c + 1)).toNat ≠ 0 := fun h => hzero (UInt8.toNat_inj.mp h)
          rw [hdrop]
          exact ih fuel (c + (opts (c + 1)).toNat) pcb ((c + 1) :: c :: reads) (by omega) (by omega)
    · have hnil : max_c - c = 0 := Nat.sub_eq_zero_of_le (Nat.le_of_not_lt hc)
      rw [if_neg hc, hnil, areaFrom_zero]
      refine ⟨pcb, reads, rfl, ?_⟩
      cases fuel <;> rfl

/-- Three NOP options, and the kind of an option that has no length in the area. -/
theorem length_behind_area : ¬ ∀ (TCP_MSS : ℕ) (timestamps : Bool) (seg : OptSeg) (opts : ℕ → UInt8)
    (hdrlen : Fin 16) (pcb : OptPcb), ParsesRight TCP_MSS timestamps seg opts hdrlen pcb := by
  intro h
  obtain ⟨pcb', reads, hparse, hreads, -⟩ := h 536 false ⟨true, 0, 1⟩
    (fun c => if c = 3 then 0x02 else 0x01) 6 { mss := 536 }
  have hrun : tcpParseoptAt 536 false ⟨true, 0, 1⟩ (fun c => if c = 3 then 0x02 else 0x01) 6
      { mss := 536 } = some ({ mss := 536 }, [4, 3, 2, 1, 0]) := by
    decide +kernel
  rw [hrun] at hparse
  cases hparse
  exact absurd (hreads 4 (by decide)) (by decide)

end Lwip.Tcp
