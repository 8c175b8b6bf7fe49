import Lwip.Dns.Names
import Lwip.Dns.Resolver
import Lwip.Lib.Overlay

/-!
# Queries

What `dns_send` writes into the pbuf that it allocates. The loops go through the hostname once, with
the octet for the length of a label left out until the label is copied. `dnsLabels_eq` says what
they leave there, if it fits: the encoding of `Names.lean`. It is one octet for each label, its
length modulo 2^8, followed by the label (`dnsEncodeName_labels`), and it can be split again if the
lengths are right (`splitName_labels`).
-/

namespace Lwip.Dns

/-- Octets are written from the place `i` of a pbuf on: `none` if one of them is outside of it. -/
def store (payload : List UInt8) (i : ℕ) (octets : List UInt8) : Option (List UInt8) :=
  if i + octets.length ≤ payload.length then some (overlay payload i octets) else none

/-- What has been written. -/
structure Written where
  payload : List UInt8
  /-- `query`, as a place in the pbuf. -/
  query : ℕ
  /-- Not in the source: the octets that were written as the length of a label. -/
  lengths : List UInt8
  deriving DecidableEq, Repr

/-- The loops of `dns_send` that convert the hostname. A label has been copied up to `query`, `n`
octets of it, and its length goes to `nptr`. -/
def dnsLabels : (pHostname : List UInt8) → (nptr query n : ℕ) → (payload : List UInt8) →
    Option Written
  | [], nptr, query, n, payload => do
    let payload ← store payload nptr [UInt8.ofNat n]
    let payload ← store payload query [0]
    some ⟨payload, query + 1, [UInt8.ofNat n]⟩
  | c :: pHostname, nptr, query, n, payload =>
    if c = DOT then do
      let payload ← store payload nptr [UInt8.ofNat n]
      let w ← dnsLabels pHostname query (query + 1) 0 payload
      some { w with lengths := UInt8.ofNat n :: w.lengths }
    else do
      let payload ← store payload query [c]
      dnsLabels pHostname nptr (query + 1) ((n + 1) % 2^8) payload

/-- The length that `dns_send` gives `pbuf_alloc`, a `u16_t`. -/
def queryLen (o : Opts) : ℕ := (12 + o.DNS_MAX_NAME_LENGTH + 4) % 2^16

/-- The header of a query; `id` is a `u8_t`. -/
def queryHdr (id : UInt8) : List UInt8 := [0, id, 1, 0, 0, 1, 0, 0, 0, 0, 0, 0]

/-- `struct dns_query`, for an address. -/
def queryTail : List UInt8 := [0, 1, 0, 1]

/-- The lines of `dns_send` between `pbuf_alloc` and `pbuf_realloc`, with the memory of the pbuf. -/
def dnsSendFill (id : UInt8) (name payload : List UInt8) : Option Written := do
  let payload ← store payload 0 (List.replicate 12 0)
  let payload ← store payload 0 [0, id]
  let payload ← store payload 2 [1]
  let payload ← store payload 4 [0, 1]
  let w ← dnsLabels name 12 13 0 payload
  let payload ← store w.payload w.query queryTail
  some { w with payload }

/-- What is left of the pbuf after `pbuf_realloc`, and sent. -/
def Written.sent (w : Written) : List UInt8 := w.payload.take (w.query + 4)

/-! ## The loops -/

variable {name payload label : List UInt8} {nptr : ℕ}

/-- A store inside of the pbuf. -/
theorem store_eq {i : ℕ} {octets : List UInt8} (h : i + octets.length ≤ payload.length) :
    store payload i octets = some (overlay payload i octets) := if_pos h

/-- A store outside of the pbuf. -/
theorem store_none {i : ℕ} {octets : List UInt8} (h : ¬ i + octets.length ≤ payload.length) :
    store payload i octets = none := if_neg h

/-- The labels of a hostname, when `label` has been copied already. -/
def labelsFrom (label name : List UInt8) : List (List UInt8) :=
  (name.splitOn DOT).modifyHead (label ++ ·)

/-- A label as it is sent. -/
def wireLabel (label : List UInt8) : List UInt8 := UInt8.ofNat label.length :: label

/-- The octets that are written as lengths. -/
def labelLengths (label name : List UInt8) : List UInt8 :=
  (labelsFrom label name).map fun l => UInt8.ofNat l.length

/-- The last label. -/
theorem labelsFrom_nil (label : List UInt8) : labelsFrom label [] = [label] := by
  simp [labelsFrom]

/-- A dot ends a label. -/
theorem labelsFrom_dot (label name : List UInt8) :
    labelsFrom label (DOT :: name) = label :: name.splitOn DOT := by
  rw [labelsFrom, List.splitOn_cons_eq_if_modifyHead, if_pos (by rfl), List.modifyHead_cons,
    List.append_nil]

/-- Another character belongs to the label. -/
theorem labelsFrom_cons {c : UInt8} (hdot : c ≠ DOT) (label name : List UInt8) :
    labelsFrom label (c :: name) = labelsFrom (label ++ [c]) name := by
  rw [labelsFrom, labelsFrom, List.splitOn_cons_eq_if_modifyHead, if_neg (by simpa using hdot),
    List.modifyHead_modifyHead]
  congr 1
  funext l
  exact List.append_cons label c l

/-- From the start, the labels are the parts between the dots. -/
theorem labelsFrom_start (name : List UInt8) : labelsFrom [] name = name.splitOn DOT := by
  rw [labelsFrom]
  cases name.splitOn DOT <;> rfl

/-- The length of a label that a dot ends. -/
theorem labelLengths_dot (label name : List UInt8) :
    labelLengths label (DOT :: name) = UInt8.ofNat label.length :: labelLengths [] name := by
  rw [labelLengths, labelLengths, labelsFrom_dot, labelsFrom_start, List.map_cons]

/-- A character more in a label. -/
theorem labelLengths_cons {c : UInt8} (hdot : c ≠ DOT) (label name : List UInt8) :
    labelLengths label (c :: name) = labelLengths (label ++ [c]) name := by
  rw [labelLengths, labelLengths, labelsFrom_cons hdot]

/-- The encoding, label by label. -/
theorem encodeLabels_labels (label name : List UInt8) :
    encodeLabels label name = (labelsFrom label name).flatMap wireLabel ++ [0] := by
  induction name generalizing label with
  | nil => rw [encodeLabels, labelsFrom_nil, List.flatMap_singleton, wireLabel]
  | cons c name ih =>
    rw [encodeLabels]
    by_cases hdot : c = DOT
    · rw [if_pos hdot, hdot, labelsFrom_dot, List.flatMap_cons, ih, labelsFrom_start, wireLabel,
        List.append_assoc]
    · rw [if_neg hdot, labelsFrom_cons hdot, ih]

/-- The encoding is the labels with their lengths, and a zero. -/
theorem dnsEncodeName_labels (name : List UInt8) :
    dnsEncodeName name = (name.splitOn DOT).flatMap wireLabel ++ [0] := by
  rw [dnsEncodeName, encodeLabels_labels, labelsFrom_start]

/-- Octets behind those that are there. -/
theorem store_after {a b : List UInt8} {i : ℕ} (h : i + a.length ≤ payload.length) :
    store (overlay payload i a) (i + a.length) b =
      if i + a.length + b.length ≤ payload.length then some (overlay payload i (a ++ b))
      else none := by
  rw [store, length_overlay h, overlay_overlay h]

/-- The length of a label that has been copied. -/
theorem store_length (h : nptr + 1 + label.length ≤ payload.length) :
    store (overlay payload (nptr + 1) label) nptr [UInt8.ofNat label.length] =
      some (overlay payload nptr (UInt8.ofNat label.length :: label)) := by
  rw [store_eq (by rw [length_overlay h, List.length_singleton]; omega)]
  exact congrArg some (overlay_overlay_before (a := [UInt8.ofNat label.length]) h)

/-- A label that begins behind the end of the pbuf. -/
theorem dnsLabels_none {query n : ℕ} (hnptr : payload.length ≤ nptr)
    (hquery : payload.length ≤ query) : dnsLabels name nptr query n payload = none := by
  have hout : ∀ {i : ℕ} (c : UInt8), payload.length ≤ i → store payload i [c] = none := fun c hi =>
    store_none (by rw [List.length_singleton]; omega)
  cases name with
  | nil => rw [dnsLabels, hout _ hnptr]; rfl
  | cons c name =>
    rw [dnsLabels, hout _ hnptr, hout _ hquery]
    exact ite_self none

/-- What the loops leave in the pbuf, if it fits. -/
theorem dnsLabels_eq (h : nptr + 1 + label.length ≤ payload.length) :
    dnsLabels name nptr (nptr + 1 + label.length) (label.length % 2^8)
    (overlay payload (nptr + 1) label) =
      if nptr + label.length + name.length + 2 ≤ payload.length then
        some ⟨overlay payload nptr (encodeLabels label name), nptr + label.length + name.length + 2,
          labelLengths label name⟩
      else none := by
  have hlabel : ∀ (nptr : ℕ) (label : List UInt8),
      nptr + (UInt8.ofNat label.length :: label).length = nptr + 1 + label.length :=
      fun nptr label => by
    rw [List.length_cons]
    omega
  induction name generalizing label nptr payload with
  | nil =>
    have hlabel := hlabel nptr label
    rw [dnsLabels, UInt8.ofNat_mod_size, store_length h, Option.bind_eq_bind, Option.bind_some,
      ← hlabel, store_after (by omega), hlabel, labelLengths, labelsFrom_nil]
    by_cases hfit : nptr + 1 + label.length + 1 ≤ payload.length
    · rw [List.length_singleton, if_pos hfit, List.length_nil, if_pos (by omega), Option.bind_some,
        encodeLabels]
      congr 2
      omega
    · rw [List.length_singleton, if_neg hfit, List.length_nil, if_neg (by omega)]
      rfl
  | cons c name ih =>
    have hlabel := hlabel nptr label
    rw [dnsLabels, UInt8.ofNat_mod_size]
    by_cases hdot : c = DOT
    · -- The next label begins behind the one that is complete.
      rw [if_pos hdot, store_length h, Option.bind_eq_bind, Option.bind_some, hdot,
        labelLengths_dot, encodeLabels, if_pos rfl]
      by_cases hnext : nptr + 1 + label.length + 1 ≤ payload.length
      · have hrest := @ih (overlay payload nptr (UInt8.ofNat label.length :: label)) []
          (nptr + 1 + label.length) (by rwa [length_overlay (by omega), List.length_nil])
        rw [overlay_nil, List.length_nil, length_overlay (by omega), ← hlabel,
          overlay_overlay (by omega), hlabel] at hrest
        simp only [Nat.add_zero, Nat.zero_mod] at hrest
        rw [hrest]
        by_cases hfit : nptr + 1 + label.length + name.length + 2 ≤ payload.length
        · rw [if_pos hfit, if_pos (by rw [List.length_cons]; omega), Option.bind_eq_bind,
            Option.bind_some]
          have hquery : nptr + 1 + label.length + name.length + 2 =
              nptr + label.length + (name.length + 1) + 2 := by
            omega
          rw [List.length_cons, hquery]
        · rw [if_neg hfit, if_neg (by rw [List.length_cons]; omega)]
          rfl
      · have hlen : (overlay payload nptr (UInt8.ofNat label.length :: label)).length =
            payload.length :=
          length_overlay (by omega)
        rw [dnsLabels_none (by omega) (by omega), if_neg (by rw [List.length_cons]; omega)]
        rfl
    · -- The octet belongs to the label.
      rw [if_neg hdot, store_after h, labelLengths_cons hdot, encodeLabels, if_neg hdot]
      by_cases hnext : nptr + 1 + label.length + 1 ≤ payload.length
      · have hlen : (label ++ [c]).length = label.length + 1 := List.length_append
        have hrest := @ih payload (label ++ [c]) nptr (by omega)
        have hsum : nptr + (label.length + 1) + name.length + 2 =
            nptr + label.length + (name.length + 1) + 2 := by
          omega
        have hmod : (label.length % 2^8 + 1) % 2^8 = (label.length + 1) % 2^8 := by omega
        rw [hlen, ← Nat.add_assoc] at hrest
        rw [List.length_singleton, if_pos hnext, Option.bind_eq_bind, Option.bind_some, hmod, hrest,
          List.length_cons, hsum]
      · rw [List.length_singleton, if_neg hnext, if_neg (by rw [List.length_cons]; omega)]
        rfl

/-- The encoding is two octets longer than the name. -/
theorem length_dnsEncodeName (name : List UInt8) :
    (dnsEncodeName name).length = name.length + 2 := by
  have hbody : (encodeBody name).length = name.length + 1 := by
    induction name with
    | nil => rfl
    | cons c name ih => rw [encodeBody, List.length_cons, List.length_cons, ih]
  rw [dnsEncodeName_eq, List.length_cons, hbody]

/-- Octets within the first part of a pbuf. -/
theorem store_append {hdr a : List UInt8} {i : ℕ} (h : i + a.length ≤ hdr.length)
    (rest : List UInt8) : store (hdr ++ rest) i a = some (overlay hdr i a ++ rest) := by
  rw [store_eq (by rw [List.length_append]; omega), overlay_append h]

/-- `dns_send` after it has written the header. -/
theorem dnsSendFill_hdr (id : UInt8) (name : List UInt8) (h : 12 ≤ payload.length) :
    dnsSendFill id name payload =
    (dnsLabels name 12 13 0 (overlay payload 0 (queryHdr id))).bind fun w =>
      (store w.payload w.query queryTail).bind fun payload => some { w with payload } := by
  have hzero : store payload 0 (List.replicate 12 0) =
      some (List.replicate 12 0 ++ payload.drop 12) := by
    rw [store_eq (by simpa using h), overlay_zero]
    rfl
  have hwritten : overlay (overlay (overlay (List.replicate 12 0) 0 [0, id]) 2 [1]) 4 [0, 1] ++
      payload.drop 12 = overlay payload 0 (queryHdr id) := (overlay_zero payload (queryHdr id)).symm
  rw [dnsSendFill, hzero, Option.bind_eq_bind, Option.bind_some, store_append (by simp),
    Option.bind_some,
    store_append (by simp [overlay]), Option.bind_some, store_append (by simp [overlay]),
    Option.bind_some, hwritten]
  rfl

/-- The loops of `dns_send`, from the header on. -/
theorem dnsLabels_hdr (id : UInt8) (name : List UInt8) (h : 12 ≤ payload.length) :
    dnsLabels name 12 13 0 (overlay payload 0 (queryHdr id)) =
      if 12 + (name.length + 2) ≤ payload.length then
        some ⟨overlay payload 0 (queryHdr id ++ dnsEncodeName name), 12 + (name.length + 2),
          labelLengths [] name⟩
      else none := by
  have hlen : (overlay payload 0 (queryHdr id)).length = payload.length := length_overlay h
  by_cases hlabel : 13 ≤ payload.length
  · have hloops := @dnsLabels_eq name (overlay payload 0 (queryHdr id)) [] 12
      (by rw [hlen]; exact hlabel)
    have hencode : overlay (overlay payload 0 (queryHdr id)) 12 (dnsEncodeName name) =
        overlay payload 0 (queryHdr id ++ dnsEncodeName name) := overlay_overlay h
    rw [overlay_nil, hlen, ← dnsEncodeName, hencode] at hloops
    exact hloops
  · rw [dnsLabels_none (by omega) (by omega), if_neg (by omega)]

/-- What `dns_send` writes, if it fits. -/
theorem dnsSendFill_eq (id : UInt8) (name payload : List UInt8) :
    dnsSendFill id name payload =
      if 12 + (name.length + 2) + 4 ≤ payload.length then
        some ⟨overlay payload 0 (queryHdr id ++ dnsEncodeName name ++ queryTail),
        12 + (name.length + 2),
          labelLengths [] name⟩
      else none := by
  by_cases hhdr : 12 ≤ payload.length
  · rw [dnsSendFill_hdr id name hhdr, dnsLabels_hdr id name hhdr]
    by_cases hfit : 12 + (name.length + 2) ≤ payload.length
    · have hquery : 12 + (name.length + 2) = 0 + (queryHdr id ++ dnsEncodeName name).length := by
        rw [List.length_append, length_dnsEncodeName, Nat.zero_add]
        rfl
      have htail : queryTail.length = 4 := rfl
      rw [if_pos hfit, Option.bind_some, hquery, store_after (by omega), htail]
      by_cases hall : 0 + (queryHdr id ++ dnsEncodeName name).length + 4 ≤ payload.length
      · rw [if_pos hall, if_pos hall]
        rfl
      · rw [if_neg hall, if_neg hall]
        rfl
    · rw [if_neg hfit, if_neg (by omega)]
      rfl
  · have hzero : store payload 0 (List.replicate 12 0) = none := store_none (by simpa using hhdr)
    rw [dnsSendFill, hzero, if_neg (by omega)]
    rfl

/-- What `dns_send` sends. -/
theorem sent_eq {id : UInt8} {w : Written} (h : dnsSendFill id name payload = some w) :
    w.sent = queryHdr id ++ dnsEncodeName name ++ queryTail := by
  rw [dnsSendFill_eq] at h
  split at h
  · cases h
    have hlen : (queryHdr id ++ dnsEncodeName name ++ queryTail).length =
        12 + (name.length + 2) + 4 := by
      rw [List.length_append, List.length_append, length_dnsEncodeName]
      rfl
    rw [Written.sent, overlay_zero, ← hlen, List.take_left]
  · cases h

/-! ## Splitting the encoded name -/

/-- The encoded name is split at its length octets. -/
def splitName : Mem → Option (List Mem)
  | [] => none
  | n :: l =>
    if n = 0 then some []
    else if l.length < n.toNat then none
    else (splitName (l.drop n.toNat)).map (l.take n.toNat :: ·)
termination_by l => l.length
decreasing_by
  rw [List.length_cons, List.length_drop]
  omega

/-- The query is well formed: the octets written as lengths are lengths of labels, and the name in
it, split and joined with dots, is the hostname. -/
structure Written.WellFormed (name : List UInt8) (w : Written) : Prop where
  lengths : ∀ n ∈ w.lengths, 1 ≤ n.toNat ∧ n.toNat ≤ 63
  name : ∃ labels, splitName (w.payload.drop 12) = some labels ∧ [DOT].intercalate labels = name

/-- A label with its length, as it is split off. -/
theorem splitName_label {label : List UInt8} (rest : Mem) (hpos : 1 ≤ label.length % 2^8) :
    splitName (wireLabel label ++ rest) =
      (splitName ((label ++ rest).drop (label.length % 2^8))).map
        (label.take (label.length % 2^8) :: ·) := by
  have hn : (UInt8.ofNat label.length).toNat = label.length % 2^8 := UInt8.toNat_ofNat'
  have hle : label.length % 2^8 ≤ label.length := Nat.mod_le _ _
  have hzero : UInt8.ofNat label.length ≠ 0 := by
    intro hzero
    rw [hzero] at hn
    exact Nat.ne_of_gt hpos hn.symm
  rw [wireLabel, List.cons_append, splitName, if_neg hzero, hn,
    if_neg (by rw [List.length_append]; omega), List.take_append_of_le_length hle]

/-- Labels whose lengths fit into an octet are split as they were joined. -/
theorem splitName_labels {labels : List (List UInt8)}
    (h : ∀ l ∈ labels, 1 ≤ l.length ∧ l.length ≤ 63)
    (tail : Mem) : splitName (labels.flatMap wireLabel ++ 0 :: tail) = some labels := by
  induction labels with
  | nil =>
    rw [List.flatMap_nil, List.nil_append, splitName]
    rfl
  | cons l labels ih =>
    obtain ⟨hpos, hle⟩ := h l List.mem_cons_self
    have hmod : l.length % 2^8 = l.length := Nat.mod_eq_of_lt (by omega)
    rw [List.flatMap_cons, List.append_assoc, splitName_label _ (by omega), hmod, List.drop_left,
      List.take_length, ih fun l hl => h l (List.mem_cons_of_mem _ hl)]
    rfl

/-- There is no dot in a label. -/
theorem not_mem_label {name l : List UInt8} (h : l ∈ name.splitOn DOT) : DOT ∉ l := by
  induction name generalizing l with
  | nil =>
    obtain rfl := List.mem_singleton.mp h
    exact List.not_mem_nil
  | cons c name ih =>
    rw [List.splitOn_cons_eq_if_modifyHead] at h
    by_cases hdot : c = DOT
    · rw [if_pos (by simpa using hdot)] at h
      obtain rfl | h := List.mem_cons.mp h
      · exact List.not_mem_nil
      · exact ih h
    · rw [if_neg (by simpa using hdot)] at h
      cases hsplit : name.splitOn DOT with
      | nil => exact absurd hsplit (List.splitOn_ne_nil DOT name)
      | cons x xs =>
        rw [hsplit, List.modifyHead_cons] at h
        rw [hsplit] at ih
        obtain rfl | h := List.mem_cons.mp h
        · exact List.not_mem_cons_of_ne_of_not_mem (Ne.symm hdot) (ih List.mem_cons_self)
        · exact ih (List.mem_cons_of_mem x h)

/-- What is joined begins with the first label; a dot follows it, or nothing. -/
theorem intercalate_cons (l : List UInt8) (labels : List (List UInt8)) :
    [DOT].intercalate (l :: labels) = l ++ if labels = [] then []
    else DOT :: [DOT].intercalate labels := by
  cases labels with
  | nil => rw [List.intercalate_singleton, if_pos rfl, List.append_nil]
  | cons l' labels =>
    rw [List.intercalate_cons_cons, if_neg (List.cons_ne_nil l' labels), List.append_assoc]
    rfl

/-- Labels that are found again when the name is split have lengths that fit into an octet. -/
theorem length_lt_of_splitName {labels labels' : List (List UInt8)} {tail : Mem}
    (hdot : ∀ l ∈ labels, DOT ∉ l) (hpos : ∀ l ∈ labels, 1 ≤ l.length % 2^8)
    (hsplit : splitName (labels.flatMap wireLabel ++ 0 :: tail) = some labels')
    (hjoin : [DOT].intercalate labels' = [DOT].intercalate labels) :
    ∀ l ∈ labels, l.length < 2^8 := by
  induction labels generalizing labels' with
  | nil => nofun
  | cons l labels ih =>
    rw [List.flatMap_cons, List.append_assoc,
      splitName_label _ (hpos l List.mem_cons_self)] at hsplit
    obtain ⟨rest, hrest, rfl⟩ := Option.map_eq_some_iff.mp hsplit
    rw [intercalate_cons, intercalate_cons] at hjoin
    have hl : l.length < 2^8 := by
      by_contra hlong
      -- What is split off is too short: where it ends there is a dot or nothing, but in `l` another
      -- octet.
      have hk : l.length % 2^8 < l.length := by omega
      have hat := congrArg (fun s => s[l.length % 2^8]?) hjoin
      rw [List.getElem?_append_right (by rw [List.length_take]; omega), List.length_take,
        Nat.min_eq_left hk.le, Nat.sub_self, List.getElem?_append_left hk,
        List.getElem?_eq_getElem hk] at hat
      split at hat
      · cases hat
      · have heq : DOT = l[l.length % 2^8] := Option.some.inj hat
        exact hdot l List.mem_cons_self (heq ▸ List.getElem_mem hk)
    have hmod : l.length % 2^8 = l.length := Nat.mod_eq_of_lt hl
    rw [hmod, List.drop_left] at hrest
    rw [hmod, List.take_length] at hjoin
    have htails := List.append_cancel_left hjoin
    intro x hx
    obtain rfl | hx := List.mem_cons.mp hx
    · exact hl
    · have hne : labels ≠ [] := List.ne_nil_of_mem hx
      rw [if_neg hne] at htails
      split at htails
      · cases htails
      · exact ih (fun l hl => hdot l (List.mem_cons_of_mem _ hl))
          (fun l hl => hpos l (List.mem_cons_of_mem _ hl)) hrest (List.cons.inj htails).2 x hx

/-- The encoded name in the pbuf. -/
theorem drop_written (id : UInt8) (name payload : List UInt8) : ∃ tail,
    (overlay payload 0 (queryHdr id ++ dnsEncodeName name ++ queryTail)).drop 12 =
      (name.splitOn DOT).flatMap wireLabel ++ 0 :: tail := by
  refine ⟨queryTail ++ payload.drop (queryHdr id ++ dnsEncodeName name ++ queryTail).length, ?_⟩
  rw [overlay_zero, dnsEncodeName_labels]
  simp only [List.append_assoc]
  exact List.drop_left' rfl

/-- `dns_send` stays in its pbuf and sends a well-formed query exactly if the encoded name fits, and
all labels of the hostname have between 1 and 63 octets. -/
theorem dnsSend_wellFormed_iff (o : Opts) (id : UInt8) (name payload : List UInt8)
    (hpbuf : payload.length = queryLen o) :
    (∃ w, dnsSendFill id name payload = some w ∧ w.WellFormed name) ↔
      12 + (name.length + 2) + 4 ≤ queryLen o ∧
        ∀ label ∈ name.splitOn DOT, 1 ≤ label.length ∧ label.length ≤ 63 := by
  have hoctet : ∀ l : List UInt8, (UInt8.ofNat l.length).toNat = l.length % 2^8 :=
    fun l => UInt8.toNat_ofNat'
  obtain ⟨tail, hbody⟩ := drop_written id name payload
  rw [dnsSendFill_eq, hpbuf]
  constructor
  · rintro ⟨w, hw, hwell⟩
    split at hw
    · next hfit =>
      cases hw
      obtain ⟨hlengths, labels, hsplit, hjoin⟩ := hwell
      have hmod : ∀ l ∈ name.splitOn DOT, 1 ≤ l.length % 2^8 ∧ l.length % 2^8 ≤ 63 := by
        intro l hl
        rw [← hoctet]
        apply hlengths
        rw [labelLengths, labelsFrom_start]
        exact List.mem_map_of_mem hl
      rw [hbody] at hsplit
      have hlt := length_lt_of_splitName (fun l hl => not_mem_label hl) (fun l hl => (hmod l hl).1)
        hsplit (hjoin.trans (List.intercalate_splitOn DOT).symm)
      refine ⟨hfit, fun l hl => ?_⟩
      have hmodl := hmod l hl
      rwa [Nat.mod_eq_of_lt (hlt l hl)] at hmodl
    · cases hw
  · rintro ⟨hfit, hlabels⟩
    rw [if_pos hfit]
    refine ⟨_, rfl, fun n hn => ?_, name.splitOn DOT, ?_, List.intercalate_splitOn DOT⟩
    · rw [labelLengths, labelsFrom_start] at hn
      obtain ⟨l, hl, rfl⟩ := List.mem_map.mp hn
      have hl := hlabels l hl
      rw [hoctet, Nat.mod_eq_of_lt (by omega)]
      exact hl
    · rw [hbody]
      exact splitName_labels hlabels tail

/-- The query for `"a.b"`. -/
theorem dnsSend_wellFormed_iff_exampleName :
    ∃ w, dnsSendFill 0 [97, 46, 98] (List.replicate 272 0) = some w ∧ w.WellFormed [97, 46, 98] :=
  (dnsSend_wellFormed_iff { inet_addr := fun _ => INADDR_NONE } 0 [97, 46, 98]
    (List.replicate 272 0) List.length_replicate).mpr ⟨by decide, by decide⟩

/-- A hostname of 255 octets, in labels of 63, does not fit into the pbuf, and in `"a..b"` there is
a label without an octet. -/
theorem long_query_leaves_pbuf :
    let label := List.replicate 63 97
    let name := label ++ DOT :: label ++ DOT :: label ++ DOT :: label
    name.length < 256 ∧ dnsSendFill 0 name (List.replicate 272 0) = none ∧
      ¬ ∃ w, dnsSendFill 0 [97, 46, 46, 98] (List.replicate 272 0) = some w ∧
        w.WellFormed [97, 46, 46, 98] := by
  intro label name
  have hlabel : label.length = 63 := List.length_replicate
  have hname : name.length = 255 := by
    simp only [name, List.length_append, List.length_cons, hlabel]
  have hpbuf : (List.replicate 272 (0 : UInt8)).length = 272 := List.length_replicate
  refine ⟨by omega, ?_, ?_⟩
  · rw [dnsSendFill_eq, hname, hpbuf]
    exact if_neg (by decide)
  · rintro ⟨w, hw, hwell⟩
    rw [dnsSendFill_eq, hpbuf, if_pos (by decide)] at hw
    obtain rfl := Option.some.inj hw
    exact absurd (hwell.lengths 0 (by decide)).1 (by decide)

end Lwip.Dns
