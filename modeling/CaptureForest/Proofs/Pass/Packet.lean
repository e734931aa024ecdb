import CaptureForest.Proofs.Pass.Growth
import CaptureForest.Pass.Packet

/-! # What packets and events add

A packet adds a node with its fields below it, or with the registers that it writes and their
fields. An event shares the packets since the event before it, and hangs from the innermost marker
or the submit. -/

namespace CaptureForest.Pass

variable {p : Pass}

/-! ## Packets -/

/-- The node of a register or a field. -/
def regFieldNode (constantEngine : Bool) (kind : NodeKind) (description : String) : Node :=
  { kind, description, aux := .regField constantEngine }

/-- The edges from a node to `count` new ones. -/
def fieldLog (parent first count : Nat) : EdgeLog := (List.range' first count).map (parent, ·)

/-- The nodes of a register and its fields. -/
def registerNodes (constantEngine : Bool) (reg : String × List String) : List Node :=
  regFieldNode constantEngine .reg reg.1 :: reg.2.map (regFieldNode constantEngine .field)

/-- The edges from a packet to new registers, and from these to their fields. -/
def registerLog (packet : Nat) : (first : Nat) → List (String × List String) → EdgeLog
  | _, [] => []
  | first, reg :: regs =>
    (packet, first) :: fieldLog first (first + 1) reg.2.length ++
      registerLog packet (first + 1 + reg.2.length) regs

theorem addRegField_succeeds (h : p.Sized) {parent : Nat} (hp : parent < p.nodes.size)
    (ce : Bool) (kind : NodeKind) (description : String) :
    Succeeds (addRegField ce parent kind description) p fun n q => n = p.nodes.size ∧
      p.Adds q [regFieldNode ce kind description] (.on View.withPackets [(parent, p.nodes.size)])
        .none ∧ q.context = p.context := by
  refine (addNode_succeeds h _).bind ?_
  rintro _ q ⟨rfl, hq, hctx⟩
  have hsize : q.nodes.size = p.nodes.size + 1 := hq.size
  refine (addOwned_succeeds hq.sized (by decide) (by omega) (by omega)).bind ?_
  rintro _ r ⟨hr, hctx'⟩
  exact ⟨rfl, hq.trans hr, hctx'.trans hctx⟩

theorem addFields_succeeds (h : p.Sized) {parent : Nat} (hp : parent < p.nodes.size) (ce : Bool)
    (lines : List String) :
    Succeeds (addFields ce parent lines) p fun _ q =>
      p.Adds q (lines.map (regFieldNode ce .field))
        (.on View.withPackets (fieldLog parent p.nodes.size lines.length)) .none ∧
      q.context = p.context := by
  unfold addFields
  induction lines generalizing p with
  | nil => exact ⟨by simpa [fieldLog] using Adds.refl h, rfl⟩
  | cons line lines ih =>
    refine leads_bind.mpr (leads_discard.mpr ((addRegField_succeeds h hp ce .field line).imp ?_))
    rintro _ q ⟨-, hq, hctx⟩
    have hsize : q.nodes.size = p.nodes.size + 1 := hq.size
    refine (ih hq.sized (by omega)).imp ?_
    rintro _ r ⟨hr, hctx'⟩
    refine ⟨?_, hctx'.trans hctx⟩
    have := hq.trans hr
    rw [hsize, Links.on_append] at this
    exact this

theorem addRegisters_succeeds (h : p.Sized) {packet : Nat} (hp : packet < p.nodes.size)
    (o : Options) (ce : Bool) (first : Nat) (values : List UInt32) :
    let regs := values.zipIdx.map fun (value, i) => o.layouts.registerLines (first + i) value
    Succeeds (addRegisters o ce packet first values) p fun _ q =>
      p.Adds q (regs.flatMap (registerNodes ce))
        (.on View.withPackets (registerLog packet p.nodes.size regs)) .none ∧
      q.context = p.context := by
  unfold addRegisters
  generalize values.zipIdx = indexed
  induction indexed generalizing p with
  | nil => exact ⟨by simpa [registerLog] using Adds.refl h, rfl⟩
  | cons valueAt indexed ih =>
    obtain ⟨value, i⟩ := valueAt
    refine Leads.bind (Q := fun _ q =>
      p.Adds q (registerNodes ce (o.layouts.registerLines (first + i) value))
        (.on View.withPackets ((packet, p.nodes.size) :: fieldLog p.nodes.size (p.nodes.size + 1)
          (o.layouts.registerLines (first + i) value).2.length)) .none ∧
      q.context = p.context) ?_ ?_
    · refine (addRegField_succeeds h hp ce .reg _).bind ?_
      rintro _ q ⟨rfl, hq, hctx⟩
      have hsize : q.nodes.size = p.nodes.size + 1 := hq.size
      refine (addFields_succeeds hq.sized (by omega) ce _).imp ?_
      rintro _ r ⟨hr, hctx'⟩
      refine ⟨?_, hctx'.trans hctx⟩
      have := hq.trans hr
      rw [hsize, Links.on_append] at this
      exact this
    · rintro _ q ⟨hq, hctx⟩
      have hsize : q.nodes.size =
          p.nodes.size + 1 + (o.layouts.registerLines (first + i) value).2.length := by
        rw [hq.size, registerNodes, List.length_cons, List.length_map]
        omega
      refine (ih hq.sized (by omega)).imp ?_
      rintro _ r ⟨hr, hctx'⟩
      refine ⟨?_, hctx'.trans hctx⟩
      have := hq.trans hr
      rw [hsize, Links.on_append] at this
      exact this

/-- The node of a packet. -/
def packetNode (constantEngine : Bool) (va : Nat) (kind : PacketKind) (header : UInt32) : Node where
  kind := .packet
  description := packetText (kind.opcode? header) header
  aux := .packet va ((kind.opcode? header).getD Aux.type4Opcode) constantEngine

/-- The registers that a packet writes, each with its fields. -/
def packetRegs (o : Options) (header : UInt32) (words : Array UInt32) :
    List (String × List String) :=
  words.toList.tail.zipIdx.map fun (value, i) =>
    o.layouts.registerLines ((Header.registerOffset header).toNat + i) value

/-- The nodes below a packet. -/
def packetBelow (o : Options) (constantEngine : Bool) (kind : PacketKind) (header : UInt32)
    (words : Array UInt32) : List Node :=
  match kind.opcode? header with
  | some op => (o.layouts.fieldLines op words).map (regFieldNode constantEngine .field)
  | none => (packetRegs o header words).flatMap (registerNodes constantEngine)

/-- The edges from a packet to the nodes below it, and those between them. -/
def packetLog (o : Options) (packet : Nat) (kind : PacketKind) (header : UInt32)
    (words : Array UInt32) : EdgeLog :=
  match kind.opcode? header with
  | some op => fieldLog packet (packet + 1) (o.layouts.fieldLines op words).length
  | none => registerLog packet (packet + 1) (packetRegs o header words)

theorem addPacket_leads (h : p.Sized) (o : Options) (va : Nat) (kind : PacketKind)
    (header : UInt32) (words : Array UInt32) :
    Leads (addPacket o va kind header words) p
      (fun n q => n = p.nodes.size ∧ va < 1 <<< Aux.packetAddressBits ∧
        p.Adds q (packetNode p.onConstantEngine va kind header ::
          packetBelow o p.onConstantEngine kind header words)
          (.on View.withPackets (packetLog o p.nodes.size kind header words)) .none ∧
        q.context = p.context)
      fun e _ => e = .violation (.packetAddressTooLarge va) ∧ 1 <<< Aux.packetAddressBits ≤ va := by
  unfold addPacket
  simp only [leads_bind, leads_get]
  unfold Aux.ofPacket?
  by_cases hva : va < 1 <<< Aux.packetAddressBits
  · rw [if_pos hva]
    refine leads_pure.mpr ?_
    refine (addNode_succeeds h _).bind ?_
    rintro _ q ⟨rfl, hq, hctx⟩
    have hsize : q.nodes.size = p.nodes.size + 1 := hq.size
    have hlt : p.nodes.size < q.nodes.size := by omega
    unfold packetBelow packetLog
    cases kind.opcode? header with
    | some op =>
      dsimp only
      refine (addFields_succeeds hq.sized hlt _ _).bind ?_
      rintro _ r ⟨hr, hctx'⟩
      have := hq.trans hr
      rw [hsize, Links.none_append] at this
      exact ⟨rfl, hva, this, hctx'.trans hctx⟩
    | none =>
      dsimp only
      refine (addRegisters_succeeds hq.sized hlt _ _ _ _).bind ?_
      rintro _ r ⟨hr, hctx'⟩
      have := hq.trans hr
      rw [hsize, Links.none_append] at this
      exact ⟨rfl, hva, this, hctx'.trans hctx⟩
  · rw [if_neg hva]
    exact leads_throw.mpr ⟨rfl, Nat.le_of_not_lt hva⟩

/-! ## Events -/

/-- The node below which events and markers are listed. -/
def innermost (p : Pass) (submit : Nat) : Nat := p.markers.headD submit

/-- The open markers are the same for both views with events and all of them are in `P`, and the
open call is the innermost of them. -/
structure Stacked (P : Nat → Prop) (p : Pass) : Prop where
  markers : ∀ m ∈ p.markers, P m
  aligned : p.internalMarkers = p.markers
  openCall : ∀ c, p.openCall = some c → p.markers.head? = some c
  scope : ∀ s, p.scope = some s → P s.call

/-- The nodes that a pass remembers exist. -/
structure Ready (p : Pass) (submit : Nat) : Prop where
  sized : p.Sized
  submit_lt : submit < p.nodes.size
  stacked : p.Stacked (· < p.nodes.size)
  packets_lt : ∀ q ∈ p.packets.toList, q < p.nodes.size
  beginPackets_lt : ∀ q ∈ p.beginPackets.toList, q < p.nodes.size

theorem Stacked.congr {P P' : Nat → Prop} {q : Pass} (h : p.Stacked P) (hP : ∀ m, P m → P' m)
    (hctx : q.context = p.context) : q.Stacked P' := by
  have hm : q.markers = p.markers := (congrArg Pass.markers hctx :)
  have hi : q.internalMarkers = p.internalMarkers := (congrArg Pass.internalMarkers hctx :)
  have hc : q.openCall = p.openCall := (congrArg Pass.openCall hctx :)
  have hs : q.scope = p.scope := (congrArg Pass.scope hctx :)
  exact {
    markers := fun m hm' => hP m (h.markers m (hm ▸ hm'))
    aligned := by rw [hi, hm, h.aligned]
    openCall := fun c hc' => by rw [hm]; exact h.openCall c (hc ▸ hc')
    scope := fun s hs' => hP s.call (h.scope s (hs ▸ hs')) }

namespace Ready

variable {q : Pass} {submit : Nat} {new : List Node} {owned shared : Links}

theorem innermost_lt (h : p.Ready submit) : p.innermost submit < p.nodes.size := by
  unfold innermost
  cases hm : p.markers with
  | nil => exact h.submit_lt
  | cons m ms => exact h.stacked.markers m (by simp [hm])

/-- A pass that grows remembers the same nodes. -/
theorem grow (h : p.Ready submit) (hsized : q.Sized) (hle : p.nodes.size ≤ q.nodes.size)
    (hctx : q.context = p.context) : q.Ready submit := by
  have hp : q.packets = p.packets := (congrArg Pass.packets hctx :)
  have hb : q.beginPackets = p.beginPackets := (congrArg Pass.beginPackets hctx :)
  exact {
    sized := hsized
    submit_lt := Nat.lt_of_lt_of_le h.submit_lt hle
    stacked := h.stacked.congr (fun _ hm => Nat.lt_of_lt_of_le hm hle) hctx
    packets_lt := fun n hn => Nat.lt_of_lt_of_le (h.packets_lt n (hp ▸ hn)) hle
    beginPackets_lt := fun n hn => Nat.lt_of_lt_of_le (h.beginPackets_lt n (hb ▸ hn)) hle }

theorem adds (h : p.Ready submit) (hq : p.Adds q new owned shared) (hctx : q.context = p.context) :
    q.Ready submit :=
  h.grow hq.sized hq.le_size hctx

end Ready

theorem on_withEvents {log : EdgeLog} :
    Links.on [.allEvent] log ++ Links.on [.rgp] log = Links.on View.withEvents log :=
  funext fun v => by cases v <;> simp [Links.on_apply, View.withEvents]

theorem attachToMarkers_succeeds {submit node : Nat} (h : p.Ready submit)
    (hn : node < p.nodes.size) :
    Succeeds (attachToMarkers submit node) p fun _ q =>
      p.Adds q [] (.on View.withEvents [(p.innermost submit, node)]) .none ∧
        q.context = p.context := by
  unfold attachToMarkers
  simp only [leads_bind, leads_get, h.stacked.aligned]
  refine (addOwned_succeeds h.sized (by decide) h.innermost_lt hn).imp ?_
  rintro _ q ⟨hq, hctx⟩
  refine (addOwned_succeeds hq.sized (by decide) (Nat.lt_of_lt_of_le h.innermost_lt hq.le_size)
    (Nat.lt_of_lt_of_le hn hq.le_size)).imp ?_
  rintro _ r ⟨hr, hctx'⟩
  refine ⟨?_, hctx'.trans hctx⟩
  rw [← on_withEvents]
  exact hq.trans hr

/-- The event that waits for a command buffer to begin. -/
def pendingEvent (p : Pass) (submit node : Nat) : PendingEvent where
  node
  allEventOwner := p.innermost submit
  rgpOwner := p.innermost submit

theorem attachEvent_succeeds {submit node : Nat} (h : p.Ready submit)
    (hn : node < p.nodes.size) :
    Succeeds (attachEvent submit node) p fun _ q =>
      p.Adds q [] (.on View.withEvents [(p.innermost submit, node)])
        (.on View.withEvents (p.packets.toList.map (node, ·))) ∧
      q.context = { p.context with
        packets := #[]
        beginEvents := p.beginEvents.push (p.pendingEvent submit node) } := by
  have hshare (v : View) (q : Pass) (hsized : q.Sized) (hsize : q.nodes.size = p.nodes.size) :
      Succeeds (p.packets.forM fun packet => addShared [v] node packet) q fun _ r =>
        q.Adds r [] .none (.on [v] (p.packets.toList.map (node, ·))) ∧ r.context = q.context := by
    rw [array_forM_eq]
    exact forM_addShared_succeeds (fun packet => (node, packet)) hsized
      (by simp) fun packet hp => by
        rw [hsize]; exact ⟨hn, h.packets_lt packet (by simpa using hp)⟩
  unfold attachEvent
  simp only [leads_bind, leads_get, View.withEvents, List.forM_eq_forM, List.forM_cons,
    List.forM_nil]
  refine (hshare .allEvent p h.sized rfl).imp ?_
  rintro _ q ⟨hq, hctx⟩
  refine (hshare .rgp q hq.sized (by rw [hq.size]; rfl)).imp ?_
  rintro _ r ⟨hr, hctx'⟩
  replace hctx := hctx'.trans hctx
  replace hr := hq.trans hr
  rw [on_withEvents] at hr
  have hmarkers : r.markers = p.markers := (congrArg Pass.markers hctx :)
  have hready : Ready { r with packets := #[] } submit :=
    { h.adds hr hctx with packets_lt := by simp, stacked := { (h.adds hr hctx).stacked with } }
  simp only [leads_pure, leads_modify]
  refine (attachToMarkers_succeeds hready (Nat.lt_of_lt_of_le hn hr.le_size)).imp ?_
  rintro _ s ⟨hs, hctx'⟩
  have howner : innermost { r with packets := #[] } submit = p.innermost submit := by
    simp only [innermost, hmarkers]
  rw [howner] at hs
  have hadds := hr.trans (hs.congr (s := r) rfl rfl rfl rfl)
  simp only [Links.none_append, Links.append_none] at hadds
  refine ⟨hadds.congr rfl rfl rfl rfl, ?_⟩
  have hevent : PendingEvent.mk node (p.markers.headD submit) (p.internalMarkers.headD submit) =
      p.pendingEvent submit node := by
    rw [h.stacked.aligned]; rfl
  replace hctx : s.context = { p.context with packets := #[] } :=
    hctx'.trans (congrArg (fun c : Pass => { c with packets := #[] }) hctx)
  refine (congrArg (fun c : Pass => { c with beginEvents := c.beginEvents.push {
    node
    allEventOwner := c.markers.headD submit
    rgpOwner := c.internalMarkers.headD submit } }) hctx).trans ?_
  exact congrArg (fun e => { p.context with
    packets := #[]
    beginEvents := p.beginEvents.push e }) hevent

/-- The node of a synchronisation. -/
def syncNode (o : Options) (sync : Sync) : Node :=
  { kind := .sync, description := sync.text o.layouts, aux := .sync sync }

theorem addSync_succeeds {submit : Nat} (h : p.Ready submit) (o : Options) (sync : Sync) :
    Succeeds (addSync o submit sync) p fun _ q =>
      p.Adds q [syncNode o sync] (.on View.withEvents [(p.innermost submit, p.nodes.size)])
        (.on View.withEvents (p.packets.toList.map (p.nodes.size, ·))) ∧
      q.context = { p.context with
        packets := #[]
        beginEvents := p.beginEvents.push (p.pendingEvent submit p.nodes.size) } := by
  refine (addNode_succeeds h.sized _).bind ?_
  rintro _ q ⟨rfl, hq, hctx⟩
  have hm : q.markers = p.markers := (congrArg Pass.markers hctx :)
  have hp : q.packets = p.packets := (congrArg Pass.packets hctx :)
  have hb : q.beginEvents = p.beginEvents := (congrArg Pass.beginEvents hctx :)
  refine (attachEvent_succeeds (h.adds hq hctx) (by
    rw [hq.size]; exact Nat.lt_succ_self _)).imp ?_
  rintro _ r ⟨hr, hctx'⟩
  simp only [innermost, pendingEvent, hm, hp, hb, hctx] at hr hctx' ⊢
  exact ⟨hq.trans hr, hctx'⟩

/-- The node of a draw, dispatch or blit. -/
def eventNode (op : UInt8) (id : Nat) : Node :=
  { kind := .event, description := Opcode.eventName op, aux := .event id }

theorem addEvent_succeeds {submit : Nat} (h : p.Ready submit) (op : UInt8) :
    Succeeds (addEvent submit op) p fun _ q =>
      p.Adds q [eventNode op p.numEvents]
        (.on View.withEvents [(p.innermost submit, p.nodes.size)])
        (.on View.withEvents (p.packets.toList.map (p.nodes.size, ·))) ∧
      q.context = { p.context with
        numEvents := p.numEvents + 1
        events := p.events.push p.nodes.size
        packets := #[]
        beginEvents := p.beginEvents.push (p.pendingEvent submit p.nodes.size) } := by
  unfold addEvent
  simp only [leads_bind, leads_get, leads_modify]
  have hstart : Ready { p with numEvents := p.numEvents + 1 } submit :=
    { h with stacked := { h.stacked with } }
  refine (addNode_succeeds hstart.sized _).imp ?_
  rintro _ q ⟨rfl, hq, hctx⟩
  have hready : Ready { q with events := q.events.push p.nodes.size } submit :=
    { hstart.adds hq hctx with stacked := { (hstart.adds hq hctx).stacked with } }
  replace hq : p.Adds q [eventNode op p.numEvents] .none .none := hq.congr rfl rfl rfl rfl
  have hm : q.markers = p.markers := (congrArg Pass.markers hctx :)
  have hp : q.packets = p.packets := (congrArg Pass.packets hctx :)
  refine (attachEvent_succeeds hready (by
    show p.nodes.size < q.nodes.size; rw [hq.size]; exact Nat.lt_succ_self _)).imp ?_
  rintro _ r ⟨hr, hctx'⟩
  simp only [innermost, hm, hp] at hr
  refine ⟨hq.trans (hr.congr rfl rfl rfl rfl), hctx'.trans ?_⟩
  refine (congrArg (fun c : Pass => { c with
    events := c.events.push p.nodes.size
    packets := #[]
    beginEvents := c.beginEvents.push (c.pendingEvent submit p.nodes.size) }) hctx).trans ?_
  rfl

end CaptureForest.Pass
