import Lwip.Tcp.Accepting
import Lwip.Tcp.Stream

/-!
# A connection over a lossy network

Both ends of one direction of a connection, and the network between them. The sender is the machine
of `connStep`, with every call of the application, both timers and whatever comes in. The receiver
is the machine of `rxStep`. The network keeps the payload of every segment that the sender ever had
on a queue, and delivers any of them, at any time and any number of times, or never: it loses,
repeats and reorders as it likes, but invents nothing.

`stream_end_to_end` says that the application of the receiver gets the first bytes of what the
application of the sender wrote, and learns of the end of the stream only after the whole of it. The
argument goes from the sender to the wire (`NetInv`: what is on the wire is a part of what was
accepted) and from there to the receiver, which sees only parts of the final stream
(`StreamInv.step`).
-/

namespace Lwip.Tcp

variable {S T : List UInt8} {r₀ : Serial}

/-! ## Parts of a stream -/

/-- What `tcp_zero_window_probe` sends of a segment: its first byte, or its FIN if it has no
data. -/
def Payload.probe (k : Payload) : Payload :=
  match k.p with
  | [] => k
  | b :: _ => { k with p := [b], fin := false }

/-- A probe of a payload is a part of the stream. -/
theorem Payload.Of.probe {k : Payload} (h : k.Of S r₀) : k.probe.Of S r₀ := by
  obtain ⟨seqno, p, fin⟩ := k
  cases p with
  | nil => exact h
  | cons b p =>
    have hend := h.end_le
    have hbytes := h.bytes
    simp only [List.length_cons] at hend hbytes
    refine ⟨?_, ?_, fun hf => absurd hf Bool.false_ne_true⟩
    · simp only [Payload.probe, List.length_cons, List.length_nil]
      omega
    · -- The first byte of the slice is the first byte of the longer slice.
      have htake := congrArg (List.take 1) hbytes
      rw [List.take_take, min_eq_left (Nat.le_add_left 1 _)] at htake
      exact htake

/-- A part without a FIN is a part of every longer stream. -/
theorem Payload.Of.append {k : Payload} (h : k.Of S r₀) (hf : T ≠ [] → k.fin = false) :
    k.Of (S ++ T) r₀ := by
  have hend := h.end_le
  rcases eq_or_ne T [] with rfl | hT
  · rw [List.append_nil]
    exact h
  · refine ⟨?_, ?_, fun hfin => ?_⟩
    · rw [List.length_append]
      omega
    · rw [List.drop_append_of_le_length (by omega), List.take_append_of_le_length, ← h.bytes]
      rw [List.length_drop]
      omega
    · rw [hf hT] at hfin
      cases hfin

/-! ## The machine -/

/-- The two ends and the network. -/
structure Net where
  conn : Conn
  /-- All the bytes that `tcp_write` has accepted. -/
  accepted : List UInt8 := []
  /-- The payloads that the network can deliver. -/
  wire : List Payload := []
  rx : RxState

/-- What a segment says besides its payload. It comes with the event: the network may pair a payload
with any acknowledgement and any window. -/
structure Header where
  psh : Bool := false
  ackno : Serial
  wnd : BitVec 16
  opts : List UInt8 := []

/-- The segment that `tcp_input` makes of a payload. -/
def Payload.toIn (k : Payload) (hdr : Header) : In where
  seg := { seqno := k.seqno, len := k.p.length, p := k.p,
           flags := { fin := k.fin, psh := hdr.psh, ack := true } }
  ackno := hdr.ackno
  wnd := hdr.wnd
  opts := hdr.opts

/-- What happens: an event of the sender, an event of the receiver other than a reception, or the
delivery of a payload or of a probe for it. -/
inductive NetEvent where
  | sender (ev : ConnEvent)
  | receiver (ev : RxEvent)
  | deliver (n : ℕ) (probe : Bool) (ticks : BitVec 32) (m : RxAlloc) (hdr : Header)

/-- One event. -/
def netStep (o o' : Opts) (net : Net) : NetEvent → Except Abort Net
  | .sender ev => do
    let conn ← connStep o net.conn ev
    .ok { net with
      conn
      accepted := net.accepted ++ connAccepts o net.conn ev
      wire := net.wire ++ conn.segs.map Seg.payload }
  -- Segments come from the wire only.
  | .receiver (.receive ..) => .ok net
  | .receiver ev => do
    let rx ← rxStep o' net.rx ev
    .ok { net with rx }
  | .deliver n probe ticks m hdr =>
    match net.wire[n]? with
    | none => .ok net
    | some k =>
      let k := if probe then k.probe else k
      -- A longer segment does not fit in an IP datagram.
      if k.p.length + 40 ≤ 0xffff then do
        let rx ← rxStep o' net.rx (.receive ticks m (k.toIn hdr))
        .ok { net with rx }
      else .ok net

/-- All that an event can do. -/
inductive NetCase (o o' : Opts) (net : Net) : Net → Prop where
  | sender {ev : ConnEvent} {conn : Conn} : connStep o net.conn ev = .ok conn →
      NetCase o o' net { net with
        conn
        accepted := net.accepted ++ connAccepts o net.conn ev
        wire := net.wire ++ conn.segs.map Seg.payload }
  | quiet : NetCase o o' net net
  | receiver {ev : RxEvent} {rx : RxState} : (∀ ticks m i, ev ≠ .receive ticks m i) →
      rxStep o' net.rx ev = .ok rx → NetCase o o' net { net with rx }
  | deliver {k : Payload} {ticks : BitVec 32} {m : RxAlloc} {hdr : Header} {rx : RxState} :
      (k ∈ net.wire ∨ ∃ k₀ ∈ net.wire, k = k₀.probe) → k.p.length + 40 ≤ 0xffff →
      rxStep o' net.rx (.receive ticks m (k.toIn hdr)) = .ok rx → NetCase o o' net { net with rx }

section Net

variable {o o' : Opts} {net net' : Net} {ev : NetEvent}

/-- What a step of the network can be. -/
theorem netStep_cases (h : netStep o o' net ev = .ok net') : NetCase o o' net net' := by
  cases ev with
  | sender ev =>
    obtain ⟨conn, hc, h⟩ := bind_eq_ok.mp h
    cases h
    exact .sender hc
  | receiver ev =>
    cases ev with
    | receive ticks m i =>
      cases h
      exact .quiet
    | recved input ticks alloc len =>
      obtain ⟨rx, hr, h⟩ := bind_eq_ok.mp h
      cases h
      exact .receiver (by rintro _ _ _ ⟨⟩) hr
    | write alloc data copy more =>
      obtain ⟨rx, hr, h⟩ := bind_eq_ok.mp h
      cases h
      exact .receiver (by rintro _ _ _ ⟨⟩) hr
    | output ticks alloc =>
      obtain ⟨rx, hr, h⟩ := bind_eq_ok.mp h
      cases h
      exact .receiver (by rintro _ _ _ ⟨⟩) hr
    | emptyAck alloc =>
      obtain ⟨rx, hr, h⟩ := bind_eq_ok.mp h
      cases h
      exact .receiver (by rintro _ _ _ ⟨⟩) hr
    | keepalive alloc =>
      obtain ⟨rx, hr, h⟩ := bind_eq_ok.mp h
      cases h
      exact .receiver (by rintro _ _ _ ⟨⟩) hr
    | probe alloc =>
      obtain ⟨rx, hr, h⟩ := bind_eq_ok.mp h
      cases h
      exact .receiver (by rintro _ _ _ ⟨⟩) hr
  | deliver n probe ticks m hdr =>
    unfold netStep at h
    dsimp only at h
    split at h
    · cases h
      exact .quiet
    · next k hk =>
      have hmem : k ∈ net.wire := List.mem_of_getElem? hk
      have hfrom : (if probe = true then k.probe else k) ∈ net.wire ∨
          ∃ k₀ ∈ net.wire, (if probe = true then k.probe else k) = k₀.probe := by
        cases probe with
        | false => exact .inl hmem
        | true => exact .inr ⟨k, hmem, rfl⟩
      generalize (if probe = true then k.probe else k) = k' at h hfrom
      split at h
      · next hle =>
        obtain ⟨rx, hr, h⟩ := bind_eq_ok.mp h
        cases h
        exact .deliver hfrom hle hr
      · cases h
        exact .quiet

/-- The stream and the wire only grow. -/
theorem netStep_grows (h : netStep o o' net ev = .ok net') :
    net.accepted.length ≤ net'.accepted.length ∧ net.wire ⊆ net'.wire := by
  cases netStep_cases h with
  | sender hc =>
    refine ⟨?_, List.subset_append_left _ _⟩
    dsimp only
    rw [List.length_append]
    exact Nat.le_add_right _ _
  | quiet => exact ⟨Nat.le_refl _, List.Subset.refl _⟩
  | receiver hne hr => exact ⟨Nat.le_refl _, List.Subset.refl _⟩
  | deliver hk hle hr => exact ⟨Nat.le_refl _, List.Subset.refl _⟩

/-! ## From the sender to the wire -/

/-- The queues and the wire carry parts of what was accepted, and a FIN only after the last of
it. -/
structure NetInv (r₀ : Serial) (net : Net) : Prop where
  snd : net.conn.Snd (fun _ => True)
  content : net.conn.Content net.accepted r₀
  queued : ∀ s ∈ net.conn.segs, s.payload ∈ net.wire
  parts : ∀ k ∈ net.wire, k.Of net.accepted r₀
  fins : ¬ net.conn.finQueued → ∀ k ∈ net.wire, k.fin = false

/-- The queued segments of a connection carry parts of its stream. -/
theorem Conn.Content.part {conn : Conn} (h : conn.Content S r₀) {s : Seg} (hs : s ∈ conn.segs) :
    s.Carries S r₀ := by
  cases conn with
  | active pcb => exact h.segs s hs
  | timeWait pcb => exact h.segs s hs
  | gone => exact absurd hs List.not_mem_nil

/-- Without a FIN in the queues no segment has one. -/
theorem Conn.Content.noFin {conn : Conn} (h : conn.Content S r₀) (hf : ¬ conn.finQueued) {s : Seg}
    (hs : s ∈ conn.segs) : s.flags.fin = false := by
  cases conn with
  | active pcb => exact h.fins (Bool.eq_false_iff.mpr hf) s hs
  | timeWait pcb => exact (hf trivial).elim
  | gone => exact (hf trivial).elim

/-- A step of the network keeps the invariant. -/
theorem NetInv.step (h : NetInv r₀ net) (hlen : net'.accepted.length < 2^31)
    (hstep : netStep o o' net ev = .ok net') : NetInv r₀ net' := by
  cases netStep_cases hstep with
  | @sender ev conn hc =>
    dsimp only at hlen
    obtain ⟨hcontent, hfin⟩ := connStep_takes h.content h.snd hlen hc
    refine ⟨connStep_snd true_stable h.snd (keeps_true o _ ev) hc, hcontent, fun s hs => ?_,
      fun k hk => ?_, fun hnf k hk => ?_⟩
    · exact List.mem_append_right _ (List.mem_map_of_mem hs)
    · rcases List.mem_append.mp hk with hk | hk
      · -- What was on the wire before has no FIN, if anything was accepted.
        refine (h.parts k hk).append fun hne => h.fins (fun hf => hne (hfin hf).1) k hk
      · obtain ⟨s, hs, rfl⟩ := List.mem_map.mp hk
        exact (hcontent.part hs).part
    · rcases List.mem_append.mp hk with hk | hk
      · exact h.fins (fun hf => hnf (hfin hf).2) k hk
      · obtain ⟨s, hs, rfl⟩ := List.mem_map.mp hk
        exact hcontent.noFin hnf hs
  | quiet => exact h
  | receiver hne hr => exact ⟨h.snd, h.content, h.queued, h.parts, h.fins⟩
  | deliver hk hle hr => exact ⟨h.snd, h.content, h.queued, h.parts, h.fins⟩

/-- A connection that starts, with nothing on the wire. -/
structure NetFresh (o' : Opts) (pcb : TcpPcb) (net : Net) : Prop where
  conn : net.conn = .active pcb
  sender : FreshSender pcb
  accepted : net.accepted = []
  wire : net.wire = []
  receiver : Fresh o' net.rx
  /-- The receiver waits for the first byte that the sender will send. -/
  meet : net.rx.pcb.rcv_nxt = pcb.snd_lbb

/-- The invariant holds of a new connection. -/
theorem NetFresh.inv {pcb : TcpPcb} (h : NetFresh o' pcb net) : NetInv pcb.snd_lbb net := by
  have hq : pcb.unacked ++ pcb.unsent = [] := by
    rw [h.sender.unacked, h.sender.unsent]
    rfl
  have hwire : ∀ k, k ∉ net.wire := by
    rw [h.wire]
    exact fun k => List.not_mem_nil
  refine ⟨?_, ?_, ?_, fun k hk => absurd hk (hwire k), fun _ k hk => absurd hk (hwire k)⟩
  · obtain ⟨base, t, ht, -⟩ := h.sender.snd
    rw [h.conn]
    exact ⟨base, t, ht, trivial⟩
  · rw [h.conn, h.accepted]
    refine ⟨?_, fun _ => ?_, ?_⟩
    · rw [hq]
      exact fun s hs => absurd hs List.not_mem_nil
    · rw [hq]
      exact fun s hs => absurd hs List.not_mem_nil
    · rw [h.sender.fin]
      exact (Serial.adv_zero _).symm
  · rw [h.conn]
    show ∀ s ∈ pcb.unacked ++ pcb.unsent, _
    rw [hq]
    exact fun s hs => absurd hs List.not_mem_nil

/-- The invariant of the wire holds after every run that accepts less than half the sequence
space. -/
theorem NetFresh.run_inv {pcb : TcpPcb} {evs : List NetEvent} (h : NetFresh o' pcb net)
    (hlen : net'.accepted.length < 2^31) (hrun : run (netStep o o') net evs = .ok net') :
    NetInv pcb.snd_lbb net' :=
  run_invariant (I := fun n => n.accepted.length < 2^31 → NetInv pcb.snd_lbb n)
    (fun _ _ _ hI _ hs hle => (hI (lt_of_le_of_lt (netStep_grows hs).1 hle)).step hle hs)
    (fun _ => h.inv) (Along.of_forall (D := fun _ => True) _ fun _ _ => trivial) hrun hlen

/-- The network can deliver everything that the sender hands to IP: every segment with sequence
numbers is on the wire, whole or as a probe. -/
theorem NetInv.sent_covered {cev : ConnEvent} {conn : Conn} {out : List Sent} (h : NetInv r₀ net)
    (hlen : (net.accepted ++ connAccepts o net.conn cev).length < 2^31)
    (hsend : connSend o net.conn cev = .ok (conn, out)) :
    ∃ net', netStep o o' net (.sender cev) = .ok net' ∧
      ∀ r ∈ out, r.tcplen = 0 ∨ ∃ k ∈ net'.wire, k.seqno = r.seqno ∧
        (r.tcplen = k.p.length + (if k.fin then 1 else 0) ∨ r.tcplen = 1 ∧
        (k.p ≠ [] ∨ k.fin = true)) := by
  have hc : connStep o net.conn cev = .ok conn := by rw [← connSend_fst, hsend]; rfl
  have hstep : netStep o o' net (.sender cev) = .ok { net with
      conn
      accepted := net.accepted ++ connAccepts o net.conn cev
      wire := net.wire ++ conn.segs.map Seg.payload } := bind_eq_ok.mpr ⟨conn, hc, rfl⟩
  obtain ⟨hcontent, -⟩ := connStep_takes h.content h.snd hlen hc
  refine ⟨_, hstep, fun r hr => ?_⟩
  rcases connSend_onQueue h.snd hsend r hr with h0 | ⟨s, hs, hseq, htcplen⟩
  · exact .inl h0
  · right
    -- The segment was queued before the step, or is queued after it.
    have hon : s.payload ∈ net.wire ++ conn.segs.map Seg.payload ∧
        s.tcplen = s.p.length + if s.flags.fin then 1 else 0 := by
      rcases List.mem_append.mp hs with hs | hs
      · exact ⟨List.mem_append_left _ (h.queued s hs), (h.content.part hs).tcplen⟩
      · exact ⟨List.mem_append_right _ (List.mem_map_of_mem hs), (hcontent.part hs).tcplen⟩
    refine ⟨s.payload, hon.1, hseq, ?_⟩
    rcases htcplen with heq | ⟨h1, hpos⟩
    · exact .inl (by rw [← heq, hon.2]; rfl)
    · refine .inr ⟨h1, ?_⟩
      rw [hon.2] at hpos
      cases hf : s.flags.fin with
      | true => exact .inr hf
      | false =>
        rw [hf] at hpos
        exact .inl (List.ne_nil_of_length_pos hpos)

/-! ## From the wire to the receiver -/

/-- A part of the stream comes in as a slice of it. -/
theorem Payload.Of.slice {k : Payload} (h : k.Of S r₀) (hdr : Header) :
    Slice S r₀ (k.toIn hdr).seg :=
  ⟨h.end_le, h.bytes, h.fin⟩

/-- The receiver keeps the invariant of the stream, as long as the wire carries parts of it. -/
theorem netStep_streamInv (hS : S.length < 2^30) (hparts : ∀ k ∈ net.wire, k.Of S r₀)
    (h : StreamInv o' S r₀ net.rx) (hstep : netStep o o' net ev = .ok net') :
    StreamInv o' S r₀ net'.rx := by
  cases netStep_cases hstep with
  | sender hc => exact h
  | quiet => exact h
  | @receiver ev rx hne hr =>
    refine (h.step hS ?_ hr).1
    cases ev with
    | receive ticks m i => exact (hne ticks m i rfl).elim
    | _ => trivial
  | @deliver k ticks m hdr rx hk hle hr =>
    have hof : k.Of S r₀ := by
      rcases hk with hk | ⟨k₀, hk, rfl⟩
      · exact hparts k hk
      · exact (hparts k₀ hk).probe
    have hin : (k.toIn hdr).seg.Incoming := ⟨rfl, hle, rfl⟩
    exact (h.step (e := .receive ticks m (k.toIn hdr)) hS ⟨hin, hof.slice hdr⟩ hr).1

/-- The receiver sees only parts of `S` in a run that ends with parts of `S` on the wire. -/
theorem NetFresh.streamInv {pcb : TcpPcb} {evs : List NetEvent} (h0 : NetFresh o' pcb net)
    (hrun : run (netStep o o') net evs = .ok net') (hS : S.length < 2^30)
    (hparts : ∀ k ∈ net'.wire, k.Of S pcb.snd_lbb) : StreamInv o' S pcb.snd_lbb net'.rx :=
  run_invariant (I := fun n => n.wire ⊆ net'.wire → StreamInv o' S pcb.snd_lbb n.rx)
    (fun _ _ _ hI _ hs hsub =>
      netStep_streamInv hS (fun k hk => hparts k (hsub ((netStep_grows hs).2 hk)))
        (hI (List.Subset.trans (netStep_grows hs).2 hsub)) hs)
    (fun _ => h0.receiver.streamInv h0.meet)
    (Along.of_forall (D := fun _ => True) _ fun _ _ => trivial) hrun (List.Subset.refl _)

/-- End to end, the bytes arrive in order, each once, and none that was not sent. In every run of a
connection in which the application writes less than 2^30 - 1 bytes, whatever the network does, the
receiver has handed up exactly the bytes up to `rcv_nxt` of those that the sender accepted. It
reports the end of the stream at most once, when it has handed up all of them. By then the sender
has had a FIN on its queues, so that the application has closed it, and takes no more bytes: the FIN
is enqueued, or the connection is in TIME_WAIT or gone. -/
theorem stream_end_to_end (o o' : Opts) {pcb : TcpPcb} {net net' : Net} {evs : List NetEvent}
    (h0 : NetFresh o' pcb net) (hrun : run (netStep o o') net evs = .ok net')
    (hlen : net'.accepted.length + 1 < 2^30) :
    net'.rx.data <+: net'.accepted ∧
      net'.rx.data =
        net'.accepted.take (Serial.dist net.rx.pcb.rcv_nxt net'.rx.pcb.rcv_nxt) ∧
      net'.rx.fins ≤ 1 ∧
      (0 < net'.rx.fins →
        net'.rx.data = net'.accepted ∧ net'.conn.finQueued ∧ ∃ k ∈ net'.wire, k.fin = true) := by
  have hnet : NetInv pcb.snd_lbb net' := h0.run_inv (by omega) hrun
  have hdel := (h0.streamInv hrun (by omega) hnet.parts).delivered
  -- Without a FIN on the wire, its payloads are also parts of a longer stream, whose end is not
  -- reached.
  have hfin : 0 < net'.rx.fins → ¬ ∀ k ∈ net'.wire, k.fin = false := by
    intro hpos hno
    have hlonger := (h0.streamInv hrun (S := net'.accepted ++ [0]) (by simpa using hlen)
      fun k hk => (hnet.parts k hk).append fun _ => hno k hk).delivered
    have hle := hdel.pos_le
    have hf := hlonger.fins_eq
    rw [List.length_append, List.length_singleton, if_neg (by omega)] at hf
    omega
  refine ⟨?_, ?_, ?_, fun hpos => ⟨?_, ?_, ?_⟩⟩
  · rw [hdel.data_eq]
    exact List.take_prefix _ _
  · rw [h0.meet]
    exact hdel.data_eq
  · rw [hdel.fins_eq]
    split <;> omega
  · have hf := hdel.fins_eq
    split at hf
    · next hend => rw [hdel.data_eq, List.take_of_length_le (by omega)]
    · omega
  · exact by_contra fun hnf => hfin hpos (hnet.fins hnf)
  · simpa using hfin hpos

end Net

/-- Both ends of a connection in this build, with nothing sent. -/
def shippedNet : Net := { conn := .active saneSender, rx := shippedReceiver }

/-- A write of copied bytes. -/
def writeBytes (p : List UInt8) :
    NetEvent := .sender (.call 1 (.write (fun _ => true) p true false))

/-- The `n`-th payload arrives. -/
def arrives (n : ℕ) : NetEvent := .deliver n false 0 {} { ackno := 1, wnd := 1000 }

/-- Two writes and a close. The segment with the FIN arrives first, then what it was before the FIN
was put on it, a probe for the first segment, and this segment twice. -/
def shuffledRun : List NetEvent :=
  [writeBytes [10, 11, 12], .sender (.output 1 true), writeBytes [13, 14], .sender (.output 1 true),
    .sender (.call 1 (.close (fun _ => true) true)), arrives 7, arrives 3,
    .deliver 0 true 0 {} { ackno := 1, wnd := 1000 }, arrives 0, arrives 0]

/-- A run in which segments are repeated, reordered and lost, and all bytes arrive. -/
theorem stream_end_to_end_shuffledRun :
    ∃ net', run (netStep .sane .shipped) shippedNet shuffledRun = .ok net' ∧
      net'.accepted = [10, 11, 12, 13, 14] ∧ net'.rx.fins = 1 ∧ net'.rx.data = net'.accepted := by
  have hfresh : NetFresh .shipped saneSender shippedNet :=
    ⟨rfl, saneSender_fresh, rfl, rfl, ⟨rfl, rfl, by decide, rfl, rfl, rfl⟩, rfl⟩
  obtain ⟨net', hrun, hnet⟩ :
      ∃ n, run (netStep .sane .shipped) shippedNet shuffledRun = .ok n ∧
        n.accepted = [10, 11, 12, 13, 14] ∧ n.rx.fins = 1 := exists_of_any (by decide +kernel)
  have h := stream_end_to_end .sane .shipped hfresh hrun (by rw [hnet.1]; decide)
  exact ⟨net', hrun, hnet.1, hnet.2, (h.2.2.2 (by rw [hnet.2]; decide)).1⟩

end Lwip.Tcp
