import Lwip.Ip.Safety

/-!
# What reassembly returns

The fragments of one datagram `o`, in any order, with any overlaps and among fragments of other
datagrams and ticks. Each queued fragment is a slice of the payload, so a queue without a hole that
starts at 0 and ends at the end of the payload is the payload. The completeness test does not look
for a hole in front of a fragment that lands between two others. The datagram that is returned is
the original if and only if there is none.
-/

namespace Lwip.Ip

/-- A datagram before fragmentation. -/
structure Original where
  src : BitVec 32
  dest : BitVec 32
  id : BitVec 16
  payload : List UInt8
  /-- It fits in a `u16_t` with its header. -/
  fits : payload.length + IP_HLEN ≤ 0xffff

namespace Original

variable (o : Original)

/-- The header is of the datagram. -/
def IsOf (h : IpHdr) : Prop := h.src = o.src ∧ h.dest = o.dest ∧ h.id = o.id

instance (h : IpHdr) : Decidable (o.IsOf h) := inferInstanceAs (Decidable (_ ∧ _ ∧ _))

/-- The fragment carries a part of the payload, and only the end of it without `MF`. -/
def FragOf (p : Frag) : Prop :=
  p.hdr.fragOffset + p.payload.length ≤ o.payload.length ∧
    p.payload = (o.payload.drop p.hdr.fragOffset).take p.payload.length ∧
    (p.hdr.lastFrag = true → p.hdr.fragOffset + p.payload.length = o.payload.length)

instance (p : Frag) : Decidable (o.FragOf p) := inferInstanceAs (Decidable (_ ∧ _ ∧ (_ → _)))

/-- A fragment with the addresses and the identification of the datagram is a fragment of it. The
fragments of other datagrams are arbitrary. -/
def Consistent : Event → Prop
  | .frag p => FromInput p ∧ (o.IsOf p.hdr → o.FragOf p)
  | .tick => True

instance : (e : Event) → Decidable (o.Consistent e)
  | .frag p => inferInstanceAs (Decidable (FromInput p ∧ (o.IsOf p.hdr → o.FragOf p)))
  | .tick => inferInstanceAs (Decidable True)

/-- The octet at `i` of the payload was received. -/
def Received (es : List Event) (i : ℕ) : Prop :=
  ∃ p, Event.frag p ∈ es ∧ o.IsOf p.hdr ∧ p.hdr.fragOffset ≤ i ∧
    i < p.hdr.fragOffset + p.payload.length

/-- The datagram `d` is the original, all of which was received. -/
structure Restored (es : List Event) (d : Datagram) : Prop where
  received : ∀ i < o.payload.length, o.Received es i
  payload : d.payload = o.payload
  isOf : o.IsOf d.hdr
  len : d.hdr.len.toNat = o.payload.length + IP_HLEN
  offset : d.hdr.fragOffset = 0
  mf : d.hdr.lastFrag = true
  chksum : inetChksum d.hdr.octets = 0

/-- The queued fragment is a slice of the payload that was received. -/
structure Slice (es : List Event) (t : Held) : Prop where
  stop : t.stop = t.start + t.payload.length
  stop_le : t.stop ≤ o.payload.length
  payload : t.payload = (o.payload.drop t.start).take t.payload.length
  received : ∃ p, Event.frag p ∈ es ∧ o.IsOf p.hdr ∧ p.hdr.fragOffset = t.start ∧
    p.payload.length = t.payload.length

variable {o} {es : List Event}

/-- A slice of the payload stays one as more fragments come. -/
theorem Slice.mono {t : Held} (h : o.Slice es t) {es' : List Event} (hs : es ⊆ es') :
    o.Slice es' t := by
  obtain ⟨p, hp, hrest⟩ := h.received
  exact ⟨h.stop, h.stop_le, h.payload, p, hs hp, hrest⟩

/-- The payload of a queue without a hole is the part of the payload from its start to its end. -/
theorem flatten_payload {t : Held} {q : List Held} (hq : ∀ x ∈ t :: q, o.Slice es x)
    (hg : Gapless (t :: q)) :
    t.start ≤ ((t :: q).getLast (List.cons_ne_nil _ _)).stop ∧
      ((t :: q).map Held.payload).flatten =
        (o.payload.drop t.start).take
          (((t :: q).getLast (List.cons_ne_nil _ _)).stop - t.start) := by
  induction q generalizing t with
  | nil =>
    have ht := hq t List.mem_cons_self
    have hlen : t.stop - t.start = t.payload.length := by rw [ht.stop]; omega
    refine ⟨by rw [List.getLast_singleton, ht.stop]; omega, ?_⟩
    rw [List.getLast_singleton, hlen, ← ht.payload]
    simp
  | cons t' q ih =>
    obtain ⟨hseam, hg'⟩ := gapless_cons_cons.mp hg
    have ht := hq t List.mem_cons_self
    obtain ⟨hle, hflat⟩ := ih (fun x hx => hq x (List.mem_cons_of_mem _ hx)) hg'
    have hstop := ht.stop
    rw [List.getLast_cons_cons]
    generalize ((t' :: q).getLast (List.cons_ne_nil _ _)).stop = e at hle hflat ⊢
    have hsplit : e - t.start = t.payload.length + (e - t'.start) := by omega
    have hdrop : t'.start = t.start + t.payload.length := by omega
    refine ⟨by omega, ?_⟩
    calc ((t :: t' :: q).map Held.payload).flatten
        = t.payload ++ ((t' :: q).map Held.payload).flatten := rfl
      _ = (o.payload.drop t.start).take t.payload.length ++
            ((o.payload.drop t.start).drop t.payload.length).take (e - t'.start) := by
          rw [hflat, ← ht.payload, List.drop_drop, hdrop]
      _ = (o.payload.drop t.start).take (e - t.start) := by
          rw [hsplit, List.take_add]

/-- Every octet between the ends of a queue without a hole was received. -/
theorem received_of_gapless {t : Held} {q : List Held} (hq : ∀ x ∈ t :: q, o.Slice es x)
    (hg : Gapless (t :: q)) {i : ℕ} (hle : t.start ≤ i)
    (hlt : i < ((t :: q).getLast (List.cons_ne_nil _ _)).stop) : o.Received es i := by
  induction q generalizing t with
  | nil =>
    have ht := hq t List.mem_cons_self
    obtain ⟨p, hp, hof, hstart, hlen⟩ := ht.received
    have hstop := ht.stop
    rw [List.getLast_singleton] at hlt
    exact ⟨p, hp, hof, by omega, by omega⟩
  | cons t' q ih =>
    obtain ⟨hseam, hg'⟩ := gapless_cons_cons.mp hg
    have ht := hq t List.mem_cons_self
    have hstop := ht.stop
    by_cases hi : i < t.stop
    · obtain ⟨p, hp, hof, hstart, hlen⟩ := ht.received
      exact ⟨p, hp, hof, by omega, by omega⟩
    · rw [List.getLast_cons_cons] at hlt
      exact ih (fun x hx => hq x (List.mem_cons_of_mem _ hx)) hg' (by omega) hlt

/-- The entry holds slices of the payload, and knows its length once it knows the last fragment. -/
structure Entry (o : Original) (es : List Event) (d : ReassData) : Prop where
  slices : ∀ t ∈ d.p, o.Slice es t
  len : d.lastfrag = true → d.datagram_len = o.payload.length

/-- An entry of the datagram stays one as more fragments come. -/
theorem Entry.mono {d : ReassData} (h : o.Entry es d) {es' : List Event} (hs : es ⊆ es') :
    o.Entry es' d :=
  ⟨fun t ht => (h.slices t ht).mono hs, h.len⟩

end Original

/-! ## What a fragment changes -/

/-- A datagram is returned from the queue of its entry, when the completeness test passes and the
queue ends where the datagram ends. -/
theorem ipReass_returns {s s' : Reass} {p : Frag} {d : Datagram} (h : Inv s)
    (hp : FromInput p) (hr : ipReass s p = .ok (s', some d)) :
    ∃ own ∈ s.datagrams, own.isOf p.hdr = true ∧ Passes (noteLastFrag own p) p.held ∧
      (lastWith p.held own.p).stop = announcedLen own p ∧
      d = reassDatagram
        { noteLastFrag (noteFirstHdr own p) p with p := queueWith p.held own.p } := by
  have hloc := ipReass_located h hp.1 ((ipReass_isOk_iff h hp).mp ⟨_, hr⟩).1
  rw [hr] at hloc
  have hinto : ∀ {A C : List ReassData} {d₀ ipr : ReassData} {cnt : ℕ},
      ipReassInto ⟨A ++ d₀ :: C, cnt⟩ A.length (predIdx A.length) ipr p = .ok (s', some d) →
      Passes (noteLastFrag ipr p) p.held ∧ (lastWith p.held ipr.p).stop = announcedLen ipr p ∧
        d = reassDatagram { noteLastFrag ipr p with p := queueWith p.held ipr.p } := by
    intro A C d₀ ipr cnt hi
    rw [ipReassInto_eq] at hi
    obtain ⟨y, hy, hi⟩ := bind_eq_ok.mp hi
    have hc := chain_cases hy
    rw [noteLastFrag_p, noteLastFrag_datagram_len] at hc
    obtain ⟨-, rfl⟩ | ⟨-, rfl⟩ | ⟨-, hpass, hend, rfl⟩ := hc
    · cases hi
    · cases hi
    · cases hi
      exact ⟨hpass, hend, rfl⟩
  generalize hok : (Except.ok (s', some d) : Except Abort (Reass × Option Datagram)) = r at hloc
  cases hloc with
  | dropped inv sub full => cases hok
  | @queued A C own cnt target isOf sub =>
    obtain ⟨hpass, hend, hd⟩ := hinto hok.symm
    rw [noteFirstHdr_p] at hend hd
    refine ⟨own, sub.subset (by simp), isOf, ?_, ?_, hd⟩
    · exact (passes_congr (by simp) (by simp [noteLastFrag_lastfrag])).mp hpass
    · rw [hend]
      simp [announcedLen]
  | created target sub none =>
    obtain ⟨⟨hlast, -, -, -, hfirst⟩, -⟩ := hinto hok.symm
    rw [noteLastFrag_p] at hfirst
    have hstart : p.hdr.fragOffset = 0 := hfirst p.held rfl
    rw [noteLastFrag_lastfrag, hp.lastFrag_eq_false hstart] at hlast
    cases hlast

namespace Original

variable {o : Original} {es : List Event}

/-- Without a wrap the helper of a fragment says where its payload is. -/
theorem held_stop {p : Frag} (hp : FromInput p) (hof : o.FragOf p) :
    p.held.stop = p.held.start + p.held.payload.length := by
  have hfits := o.fits
  have hle := hof.1
  have hlen : p.payload.length + IP_HLEN = p.hdr.len.toNat := hp.2.1
  have hfrag : p.hdr.fragLen = p.payload.length := by
    rw [IpHdr.fragLen, u16sub, hp.1, ← hlen]
    unfold IP_HLEN at *
    omega
  change u16 (p.hdr.fragOffset + p.hdr.fragLen) = p.hdr.fragOffset + p.payload.length
  rw [hfrag, u16]
  unfold IP_HLEN at *
  omega

/-- The helper of a fragment is a slice. -/
theorem slice_held {p : Frag} (hp : FromInput p) (ho : o.IsOf p.hdr) (hof : o.FragOf p)
    (hmem : Event.frag p ∈ es) : o.Slice es p.held :=
  ⟨held_stop hp hof, (held_stop hp hof).trans_le hof.1, hof.2.1, p, hmem, ho, rfl, rfl⟩

/-- An entry of the datagram takes fragments of the datagram. -/
theorem isOf_of_isOf {d : ReassData} {p : Frag} (h : d.isOf p.hdr = true) :
    o.IsOf d.iphdr ↔ o.IsOf p.hdr := by
  rw [isOf_iff] at h
  rw [IsOf, IsOf, h.1, h.2.1, h.2.2]

/-- The length is known from the fragments without `MF`. -/
theorem announcedLen_eq {d : ReassData} {p : Frag} (hd : o.Entry es d) (hp : FromInput p)
    (hof : o.FragOf p) (hl : (noteLastFrag d p).lastfrag = true) :
    announcedLen d p = o.payload.length := by
  rw [announcedLen]
  split
  · rename_i hlast
    exact (held_stop hp hof).trans (hof.2.2 hlast)
  · rename_i hlast
    rw [noteLastFrag_lastfrag, Bool.eq_false_iff.mpr hlast, Bool.or_false] at hl
    exact hd.len hl

/-- The queue with a fragment in it has slices only. -/
theorem slices_queueWith {t : Held} {q : List Held} (ht : o.Slice es t)
    (hq : ∀ x ∈ q, o.Slice es x) : ∀ x ∈ queueWith t q, o.Slice es x := by
  intro x hx
  have hmem : x = t ∨ x ∈ before t q ++ behind t q := by
    simp only [queueWith, List.mem_append, List.mem_cons] at hx ⊢
    tauto
  rcases hmem with rfl | hx
  · exact ht
  · rw [before_append_behind] at hx
    exact hq x hx

/-- A fragment keeps what is known of the entries of the datagram. -/
theorem entry_frag {s s' : Reass} {p : Frag} {out : Option Datagram} (h : Inv s)
    (hs : ∀ d ∈ s.datagrams, o.IsOf d.iphdr → o.Entry es d)
    (hp : o.Consistent (.frag p)) (hr : ipReass s p = .ok (s', out)) :
    ∀ d ∈ s'.datagrams, o.IsOf d.iphdr → o.Entry (es ++ [.frag p]) d := by
  have hsub : es ⊆ es ++ [.frag p] := List.subset_append_left _ _
  intro x hx ho
  obtain hx | ⟨ipr, hipr, hx⟩ := ipReass_entries h hp.1.1 hr x hx
  · exact (hs x hx ho).mono hsub
  · -- The entry that got the fragment.
    have hxof : x.iphdr = ipr.iphdr := by
      rcases hx with ⟨-, rfl⟩ | ⟨-, rfl⟩
      · exact noteLastFrag_iphdr ipr p
      · exact noteLastFrag_iphdr ipr p
    rw [hxof] at ho
    have hop : o.IsOf p.hdr := (isOf_of_isOf hipr.isOf).mp ho
    have hof := hp.2 hop
    have hent : o.Entry (es ++ [.frag p]) ipr := by
      obtain rfl | ⟨own, hown, hoof, -, rfl⟩ := hipr
      · exact ⟨fun t ht => (List.not_mem_nil ht).elim, fun hl => nomatch hl⟩
      · have := (hs own hown ((isOf_of_isOf hoof).mpr hop)).mono hsub
        exact ⟨by simpa using this.slices, by simpa using this.len⟩
    have hlen : (noteLastFrag ipr p).lastfrag = true →
        (noteLastFrag ipr p).datagram_len = o.payload.length := by
      intro hl
      rw [noteLastFrag_datagram_len]
      exact announcedLen_eq hent hp.1 hof hl
    have hheld : o.Slice (es ++ [.frag p]) p.held :=
      slice_held hp.1 hop hof (List.mem_append_right _ List.mem_cons_self)
    rcases hx with ⟨-, rfl⟩ | ⟨-, rfl⟩
    · exact ⟨by rw [noteLastFrag_p]; exact hent.slices, hlen⟩
    · exact ⟨slices_queueWith hheld hent.slices, hlen⟩

/-- In every run the entries of the datagram hold slices of what was received. -/
theorem run_entries {s : Reass} (hes : ∀ e ∈ es, o.Consistent e)
    (hr : run reassStep {} es = .ok s) :
    Inv s ∧ ∀ d ∈ s.datagrams, o.IsOf d.iphdr → o.Entry es d := by
  induction es using List.reverseRecOn generalizing s with
  | nil =>
    cases hr
    exact ⟨Inv.empty, fun d hd => (List.not_mem_nil hd).elim⟩
  | append_singleton es e ih =>
    rw [run_append] at hr
    obtain ⟨s₁, hs₁, hr⟩ := bind_eq_ok.mp hr
    obtain ⟨s₂, hs₂, hr⟩ := bind_eq_ok.mp hr
    cases hr
    obtain ⟨hinv, hent⟩ := ih (fun e he => hes e (List.mem_append_left _ he)) hs₁
    have he : o.Consistent e := hes e (by simp)
    cases e with
    | frag p =>
      obtain ⟨⟨s₃, out⟩, hx, hr⟩ := bind_eq_ok.mp hs₂
      cases hr
      exact ⟨ipReass_inv hinv he.1.1 hx, entry_frag hinv hent he hx⟩
    | tick =>
      obtain ⟨s₃, hs₃, haged, hinv'⟩ := ipReassTmr_ok hinv
      rw [reassStep, hs₃] at hs₂
      cases hs₂
      refine ⟨hinv', fun d hd ho => ?_⟩
      rw [haged] at hd
      obtain ⟨d', hd', rfl⟩ := List.mem_map.mp hd
      have := hent d' (List.mem_of_mem_filter hd') ho
      exact ⟨(this.mono (List.subset_append_left _ _)).slices, this.len⟩

/-! ## The datagram that is returned -/

/-- The header that is written back. -/
theorem reassHdr_spec {d : ReassData} (ho : o.IsOf d.iphdr)
    (hl : d.datagram_len = o.payload.length) :
    o.IsOf (reassHdr d) ∧ (reassHdr d).len.toNat = o.payload.length + IP_HLEN ∧
      (reassHdr d).fragOffset = 0 ∧ (reassHdr d).lastFrag = true ∧
      inetChksum (reassHdr d).octets = 0 := by
  have hfits := o.fits
  have hmf : decide ((0 : BitVec 16) &&& IP_MF = 0) = true := by decide
  have hoff : ((0 : BitVec 16) &&& IP_OFFMASK).toNat * 8 = 0 := by decide
  refine ⟨ho, ?_, hoff, hmf, IpHdr.chksum_valid _⟩
  change (BitVec.ofNat 16 (d.datagram_len + IP_HLEN)).toNat = _
  rw [BitVec.toNat_ofNat, hl, Nat.mod_eq_of_lt (by omega)]

/-- A queue that starts at 0, ends at the end of the payload and has no hole is the payload. -/
theorem restored_of_gapless {q : List Held} (hq : ∀ x ∈ q, o.Slice es x) (hne : q ≠ [])
    (hg : Gapless q) (hfirst : ∀ t ∈ q.head?, t.start = 0)
    (hlast : (q.getLast hne).stop = o.payload.length) :
    (q.map Held.payload).flatten = o.payload ∧ ∀ i < o.payload.length, o.Received es i := by
  cases q with
  | nil => exact absurd rfl hne
  | cons t q =>
    have hstart : t.start = 0 := hfirst t rfl
    refine ⟨?_, fun i hi => received_of_gapless hq hg (by omega) (by omega)⟩
    rw [(flatten_payload hq hg).2, hstart, hlast, List.drop_zero, Nat.sub_zero, List.take_length]

/-- A hole in front of a fragment makes the returned payload too short. -/
theorem length_lt_of_gap {pre post : List Held} {t x : Held}
    (hpre : ∀ y ∈ pre, o.Slice es y) (hpost : ∀ y ∈ t :: post, o.Slice es y)
    (hgpre : Gapless pre) (hgpost : Gapless (t :: post)) (hx : x ∈ pre.getLast?)
    (hlt : x.stop < t.start)
    (hlast : ((t :: post).getLast (List.cons_ne_nil _ _)).stop = o.payload.length) :
    ((pre ++ t :: post).map Held.payload).flatten.length < o.payload.length := by
  have hlen : ∀ {y : Held} {q : List Held}, (∀ z ∈ y :: q, o.Slice es z) → Gapless (y :: q) →
      ((y :: q).map Held.payload).flatten.length ≤
        ((y :: q).getLast (List.cons_ne_nil _ _)).stop - y.start := by
    intro y q hq hg
    rw [(flatten_payload hq hg).2, List.length_take]
    exact min_le_left _ _
  have hle := (flatten_payload hpost hgpost).1
  have htail := hlen hpost hgpost
  cases pre with
  | nil => cases hx
  | cons y pre =>
    have hxlast : (y :: pre).getLast (List.cons_ne_nil _ _) = x :=
      Option.some.inj ((List.getLast?_eq_some_getLast (List.cons_ne_nil _ _)).symm.trans hx)
    have hhead := hlen hpre hgpre
    rw [hxlast] at hhead
    rw [List.map_append, List.flatten_append, List.length_append]
    omega

end Original

/-- A fragment that lands between two queued fragments of its datagram starts where the one in front
of it ends. -/
def Abuts (s : Reass) (p : Frag) : Prop :=
  ∀ own ∈ s.datagrams, own.isOf p.hdr = true → behind p.held own.p ≠ [] →
    ∀ t ∈ (before p.held own.p).getLast?, t.stop = p.held.start

instance (s : Reass) (p : Frag) : Decidable (Abuts s p) :=
  inferInstanceAs (Decidable (∀ own ∈ s.datagrams, _ → _ →
    ∀ t ∈ (before p.held own.p).getLast?, t.stop = p.held.start))

/-- When `ip_reass` returns a datagram, it is the original if and only if the fragment that
completed it left no hole in front of it. -/
theorem reass_restores_iff (o : Original) (es : List Event) (p : Frag)
    (hes : ∀ e ∈ es ++ [.frag p], o.Consistent e) (ho : o.IsOf p.hdr) {s s' : Reass} {d : Datagram}
    (hrun : run reassStep {} es = .ok s) (hret : ipReass s p = .ok (s', some d)) :
    o.Restored (es ++ [.frag p]) d ↔ Abuts s p := by
  obtain ⟨hinv, hent⟩ :=
    Original.run_entries (fun e he => hes e (List.mem_append_left _ he)) hrun
  have hp : o.Consistent (.frag p) := hes _ (by simp)
  have hof := hp.2 ho
  obtain ⟨own, hmem, hown, hpass, hend, rfl⟩ := ipReass_returns hinv hp.1 hret
  have hoown : o.IsOf own.iphdr := (Original.isOf_of_isOf hown).mpr ho
  have hentry := hent own hmem hoown
  have hlen : announcedLen own p = o.payload.length :=
    Original.announcedLen_eq hentry hp.1 hof hpass.1
  obtain ⟨-, hgpre, hgpost, hseam, hfirst⟩ := hpass
  rw [noteLastFrag_p] at hgpre hgpost hseam hfirst
  have hheld : o.Slice (es ++ [.frag p]) p.held :=
    Original.slice_held hp.1 ho hof (List.mem_append_right _ List.mem_cons_self)
  have hslices := Original.slices_queueWith hheld
    (hentry.mono (List.subset_append_left es [.frag p])).slices
  have hlast : ((p.held :: behind p.held own.p).getLast (List.cons_ne_nil _ _)).stop =
      o.payload.length := hend.trans hlen
  constructor
  · -- A hole is not filled by the concatenation of the payloads.
    intro hrest own' hown' hof' hb t ht
    rw [hinv.wf.eq_of_isOf hown' hmem hof' hown] at hb ht
    have hle : t.stop ≤ p.held.start := stop_le_of_mem_before (List.mem_of_mem_getLast? ht)
    by_contra hne
    have hshort := Original.length_lt_of_gap
      (fun y hy => hslices y (List.mem_append_left _ hy))
      (fun y hy => hslices y (List.mem_append_right _ hy)) hgpre hgpost ht
      (lt_of_le_of_ne hle hne) hlast
    have hpayload : ((queueWith p.held own.p).map Held.payload).flatten = o.payload := hrest.payload
    rw [← queueWith, hpayload] at hshort
    exact lt_irrefl _ hshort
  · intro habut
    have hseam' : ∀ t ∈ (before p.held own.p).getLast?, t.stop = p.held.start := by
      by_cases hb : behind p.held own.p = []
      · exact (gapless_concat.mp (hseam hb)).2
      · exact habut own hmem hown hb
    have hg : Gapless (queueWith p.held own.p) := by
      refine gapless_append.mpr ⟨hgpre, hgpost, fun x hx y hy => ?_⟩
      cases hy
      exact hseam' x hx
    have hne : queueWith p.held own.p ≠ [] := by simp [queueWith]
    have hlast' : ((queueWith p.held own.p).getLast hne).stop = o.payload.length := by
      rw [← hlast]
      simp only [queueWith, List.getLast_append_of_ne_nil _ (List.cons_ne_nil _ _)]
    obtain ⟨hpayload, hrecv⟩ := Original.restored_of_gapless hslices hne hg hfirst hlast'
    obtain ⟨hof', hlen', hoff, hmf, hsum⟩ := Original.reassHdr_spec (o := o)
      (d := { noteLastFrag (noteFirstHdr own p) p with p := queueWith p.held own.p })
      (by
        have := noteFirstHdr_isOf hown
        rw [← Original.isOf_of_isOf this] at ho
        simpa using ho)
      (by
        change (noteLastFrag (noteFirstHdr own p) p).datagram_len = _
        rw [noteLastFrag_datagram_len, ← hlen]
        simp [announcedLen])
    exact ⟨hrecv, hpayload, hof', hlen', hoff, hmf, hsum⟩

/-- The datagram of `udpFrag 1` with the payload `0, 1, 2, ...`. -/
def countingOriginal (n : ℕ) (h : n + IP_HLEN ≤ 0xffff) : Original where
  src := 0x0a000001
  dest := 0x0a000002
  id := 1
  payload := (List.range n).map UInt8.ofNat
  fits := by rwa [List.length_map, List.length_range]

/-- The octets from `i` to `j` of that payload. -/
def counting (i j : ℕ) : List UInt8 := (List.range' i (j - i)).map UInt8.ofNat

/-- The last fragment and a tick, before the first fragment. -/
def lastFirst : List Event := [.frag (udpFrag 1 1 false (counting 8 12) 1), .tick]

/-- The last fragment first: the datagram is restored. -/
theorem reass_restores_iff_lastFirst :
    ∃ s s' d, run reassStep {} lastFirst = .ok s ∧
      ipReass s (udpFrag 1 0 true (counting 0 8) 1) = .ok (s', some d) ∧
      (countingOriginal 12 (by decide)).Restored
        (lastFirst ++ [.frag (udpFrag 1 0 true (counting 0 8) 1)]) d := by
  have hrun : (match run reassStep {} lastFirst with
      | .ok s =>
        match ipReass s (udpFrag 1 0 true (counting 0 8) 1) with
        | .ok (_, some _) => decide (Abuts s (udpFrag 1 0 true (counting 0 8) 1))
        | _ => false
      | _ => false) = true := by decide +kernel
  split at hrun
  · rename_i s hs
    split at hrun
    · rename_i s' d hd
      refine ⟨s, s', d, hs, hd, ?_⟩
      exact (reass_restores_iff _ _ _ (by decide +kernel) (by decide +kernel) hs hd).mpr
        (of_decide_eq_true hrun)
    · cases hrun
  · cases hrun

/-- The first eight octets and the last eight. -/
def bothEnds : List Event :=
  [.frag (udpFrag 1 0 true (counting 0 8) 1), .frag (udpFrag 1 3 false (counting 24 32) 1)]

/-- The third eight octets complete the datagram without the second. -/
theorem third_quarter_completes :
    (∀ e ∈ bothEnds ++ [.frag (udpFrag 1 2 true (counting 16 24) 1)],
      (countingOriginal 32 (by decide)).Consistent e) ∧
    ∃ s s' d, run reassStep {} bothEnds = .ok s ∧
      ipReass s (udpFrag 1 2 true (counting 16 24) 1) = .ok (s', some d) ∧
      ¬(countingOriginal 32 (by decide)).Restored
        (bothEnds ++ [.frag (udpFrag 1 2 true (counting 16 24) 1)]) d := by
  refine ⟨by decide +kernel, ?_⟩
  have hrun : (match run reassStep {} bothEnds with
      | .ok s =>
        match ipReass s (udpFrag 1 2 true (counting 16 24) 1) with
        | .ok (_, some d) => decide (d.payload = counting 0 8 ++ counting 16 32)
        | _ => false
      | _ => false) = true := by decide +kernel
  split at hrun
  · rename_i s hs
    split at hrun
    · rename_i s' d hd
      refine ⟨s, s', d, hs, hd, fun h => ?_⟩
      have hpayload := h.payload
      rw [of_decide_eq_true hrun] at hpayload
      exact absurd hpayload (by decide +kernel)
    · cases hrun
  · cases hrun

end Lwip.Ip
