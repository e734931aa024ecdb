import CaptureForest.Proofs.Pass.Call
import CaptureForest.Pass.Steps

/-! # Changes

Everything that can happen to a pass, edge by edge (`Pass.Change`). A packet is filed first
(`Pass.Logs`); then it ends a run of packets or has no further effect (`Pass.Works`), and the open
markers share it (`Pass.Shares`), or it marks a recorded call (`Pass.Obeys`). What every change
preserves is true at all moments of all builds. -/

namespace CaptureForest

/-- A no-operation packet does not synchronise. -/
theorem Sync.ofPacket?_nop {words : Array UInt32} : ofPacket? Opcode.nop words = none := by
  unfold ofPacket?
  simp [show Opcode.nop ≠ Opcode.waitForIdle by decide,
    show Opcode.nop ≠ Opcode.waitForMe by decide, show Opcode.nop ≠ Opcode.waitMemWrites by decide,
    show Opcode.nop ≠ Opcode.waitRegMem by decide, show Opcode.nop ≠ Opcode.eventWrite by decide]

/-- The command is neither a label nor the begin or end of a command buffer. -/
def Command.isOther (c : Command) : Bool :=
  c ≠ .beginCommandBuffer && c ≠ .endCommandBuffer &&
    !c.opensLabel && !c.closesLabel && !c.insertsLabel

namespace Pass

variable {p q : Pass} {submit : Nat}

/-! ## Filing -/

/-- The pass with one more packet that waits. -/
def packetWaits (p : Pass) (packet : Nat) : Pass := { p with
  packets := p.packets.push packet
  beginPackets := p.beginPackets.push packet }

/-- The packet at `va` is added with all that is below it. The submit and the buffer share it, and
it waits for an event and for a command buffer. -/
structure Logs (o : Options) (submit buffer va : Nat) (kind : PacketKind) (header : UInt32)
    (words : Array UInt32) (p q : Pass) : Prop where
  adds : p.Adds q
    (packetNode p.onConstantEngine va kind header ::
      packetBelow o p.onConstantEngine kind header words)
    (.on View.withPackets (packetLog o p.nodes.size kind header words))
    (.on View.withPackets [(submit, p.nodes.size)] ++
      .on View.withBuffers [(buffer, p.nodes.size)])
  context : q.context = (p.packetWaits p.nodes.size).context

/-- A packet is filed before it is executed. -/
theorem file_leads {α : Type} {buffer va : Nat} {o : Options} {kind : PacketKind}
    {header : UInt32} {words : Array UInt32} {f : Nat → PassM α} {Q : α → Pass → Prop}
    {E : Error → Pass → Prop} (h : p.Sized) (hs : submit < p.nodes.size) (hb : buffer < p.nodes.size)
    (hf : ∀ q : Pass, Logs o submit buffer va kind header words p q →
      va < 1 <<< Aux.packetAddressBits → Leads (f p.nodes.size) q Q E)
    (he : 1 <<< Aux.packetAddressBits ≤ va → ∀ q, E (.violation (.packetAddressTooLarge va)) q) :
    Leads (do
      let packet ← addPacket o va kind header words
      addShared View.withPackets submit packet
      addShared View.withBuffers buffer packet
      modify fun p => { p with
        packets := p.packets.push packet
        beginPackets := p.beginPackets.push packet }
      f packet) p Q E := by
  refine leads_bind.mpr ((addPacket_leads h o va kind header words).mono ?_ ?_)
  · rintro _ q ⟨rfl, hva, hq, hctx⟩
    have hpacket : p.nodes.size < q.nodes.size := Nodes.kind?_lt (hq.kind?_new 0)
    refine (addShared_succeeds hq.sized (by decide) (Nat.lt_of_lt_of_le hs hq.le_size)
      hpacket).bind ?_
    rintro _ r ⟨hr, hctx'⟩
    replace hr := hq.trans hr
    refine (addShared_succeeds hr.sized (by decide) (Nat.lt_of_lt_of_le hb hr.le_size)
      (Nodes.kind?_lt (hr.kind?_new 0))).bind ?_
    rintro _ s ⟨hs', hctx''⟩
    have hall := hr.trans hs'
    simp only [Links.none_append, Links.append_none, List.append_nil] at hall
    have hctx : s.context = p.context := hctx''.trans (hctx'.trans hctx)
    refine leads_bind.mpr (leads_modify.mpr (hf (s.packetWaits p.nodes.size) ⟨?_, ?_⟩ hva))
    · exact hall.congr rfl rfl rfl rfl
    · exact (congrArg (Pass.packetWaits · p.nodes.size) hctx :)
  · rintro _ q ⟨rfl, hva⟩
    exact he hva q

/-! ## Packets that mark no call -/

/-- What a packet that marks no call does beside being filed. -/
inductive Works (o : Options) (submit : Nat) (op? : Option UInt8) (words : Array UInt32)
    (p : Pass) : Pass → Prop
  /-- A synchronisation ends the run of packets. -/
  | sync {q : Pass} {op : UInt8} {sync : Sync} :
    op? = some op → Sync.ofPacket? op words = some sync →
    p.Adds q [syncNode o sync] (.on View.withEvents [(p.innermost submit, p.nodes.size)])
      (.on View.withEvents (p.packets.toList.map (p.nodes.size, ·))) →
    q.context = { p.context with
      packets := #[]
      beginEvents := p.beginEvents.push (p.pendingEvent submit p.nodes.size) } →
    Works o submit op? words p q
  /-- A draw, dispatch or blit ends the run of packets. -/
  | event {q : Pass} {op : UInt8} :
    op? = some op → Opcode.isEvent op →
    p.Adds q [eventNode op p.numEvents]
      (.on View.withEvents [(p.innermost submit, p.nodes.size)])
      (.on View.withEvents (p.packets.toList.map (p.nodes.size, ·))) →
    q.context = { p.context with
      numEvents := p.numEvents + 1
      events := p.events.push p.nodes.size
      packets := #[]
      beginEvents := p.beginEvents.push (p.pendingEvent submit p.nodes.size) } →
    Works o submit op? words p q
  | nothing : Works o submit op? words p p

/-- All open markers share a packet. -/
structure Shares (packet : Nat) (p q : Pass) : Prop where
  adds : p.Adds q [] .none (.on View.withEvents (p.markers.map (·, packet)))
  context : q.context = p.context

theorem shareWithMarkers_succeeds {packet : Nat} (h : p.Ready submit)
    (hp : packet < p.nodes.size) :
    Succeeds (shareWithMarkers packet) p fun _ q => p.Shares packet q := by
  unfold shareWithMarkers
  refine leads_bind.mpr (leads_get.mpr (leads_bind.mpr (leads_get.mpr ?_)))
  rw [h.stacked.aligned]
  refine (forM_addShared_succeeds (fun marker => (marker, packet)) h.sized (by decide)
    fun m hm => ⟨h.stacked.markers m hm, hp⟩).bind ?_
  rintro _ q ⟨hq, hctx⟩
  refine (forM_addShared_succeeds (fun marker => (marker, packet)) hq.sized (by decide)
    fun m hm => ⟨Nat.lt_of_lt_of_le (h.stacked.markers m hm) hq.le_size,
      Nat.lt_of_lt_of_le hp hq.le_size⟩).imp ?_
  rintro _ r ⟨hr, hctx'⟩
  have := hq.trans hr
  rw [on_withEvents, Links.none_append] at this
  exact ⟨this, hctx'.trans hctx⟩

/-! ## Recorded calls -/

/-- What a recorded call does, up to what is forgotten behind every call. -/
inductive Obeys (o : Options) (submit : Nat) (call : CallMarker) (p : Pass) : Pass → Prop
  /-- A command buffer begins and takes the events and packets that are remembered for it. -/
  | beginsBuffer {q : Pass} :
    call.command = .beginCommandBuffer →
    p.Regroups q (p.beginEvents.toList.map (·.node))
      [callNode o p.metadataVersion call .diveMetadata]
      (takeover (p.callClosed.bufferOwner submit) p.nodes.size
        (p.beginEvents.toList.map (·.node)))
      (.on View.withEvents (p.beginPackets.toList.map (p.nodes.size, ·))) →
    q.context = (p.callClosed.scopeEntered.beginCleared.opened p.nodes.size).context →
    Obeys o submit call p q
  | endsBuffer {q : Pass} :
    call.command = .endCommandBuffer →
    p.Adds q [callNode o p.metadataVersion call .diveMetadata]
      (.on View.withEvents [(p.callClosed.innermost submit, p.nodes.size)]) .none →
    q.context =
      (if p.callClosed.inScope then p.callClosed.levelClosed else p.callClosed).context →
    Obeys o submit call p q
  | beginsLabel {q : Pass} :
    call.command.opensLabel →
    p.Adds q [labelNode call .beginEnd p.numLabels]
      (.on View.withEvents [(p.callClosed.innermost submit, p.nodes.size)]) .none →
    q.context = { (p.callClosed.pushed p.nodes.size).context with
      numLabels := p.numLabels + 1 } →
    Obeys o submit call p q
  | endsLabel : call.command.closesLabel → Obeys o submit call p p.callClosed.labelClosed
  | insertsLabel {q : Pass} :
    call.command.insertsLabel →
    p.Adds q [labelNode call .insert p.numLabels]
      (.on View.withEvents [(p.callClosed.innermost submit, p.nodes.size)]) .none →
    q.context = { p.callClosed.context with numLabels := p.numLabels + 1 } →
    Obeys o submit call p q
  /-- Any other call stays open, and may begin a scope. -/
  | opensCall {q : Pass} :
    call.command.isOther →
    p.Adds q [callNode o p.metadataVersion call (callKind call.command)]
      (.on View.withEvents [(p.callClosed.innermost submit, p.nodes.size)]) .none →
    q.context = ((p.callClosed.scopeEnded.opened p.nodes.size).scopeBegun call.command
      p.nodes.size).context →
    Obeys o submit call p q

/-- What a recorded call leaves as it was: all but the markers, and what is remembered for a
command buffer that begins. -/
def still (p : Pass) : Pass := { p.context with
  markers := []
  internalMarkers := []
  openCall := none
  scope := none
  beginPackets := #[]
  beginEvents := #[]
  numLabels := 0 }

@[simp]
theorem still_context : p.context.still = p.still :=
  rfl

@[simp]
theorem still_callClosed : p.callClosed.still = p.still :=
  rfl

@[simp]
theorem still_pushed {marker : Nat} : (p.pushed marker).still = p.still :=
  rfl

@[simp]
theorem still_opened {marker : Nat} : (p.opened marker).still = p.still :=
  rfl

@[simp]
theorem still_scopeEnded : p.scopeEnded.still = p.still :=
  rfl

@[simp]
theorem still_scopeEntered : p.scopeEntered.still = p.still :=
  rfl

@[simp]
theorem still_scopeBegun {command : Command} {marker : Nat} :
    (p.scopeBegun command marker).still = p.still :=
  rfl

@[simp]
theorem still_levelClosed : p.levelClosed.still = p.still :=
  rfl

@[simp]
theorem still_labelClosed : p.labelClosed.still = p.still :=
  rfl

@[simp]
theorem still_beginCleared : p.beginCleared.still = p.still :=
  rfl

theorem Obeys.still_eq {o : Options} {call : CallMarker} (h : Obeys o submit call p q) :
    q.still = p.still := by
  cases h with
  | beginsBuffer _ _ hctx | opensCall _ _ hctx => simpa using congrArg still hctx
  | endsBuffer _ _ hctx =>
    split at hctx
    · simpa using congrArg still hctx
    · simpa using congrArg still hctx
  | beginsLabel _ _ hctx | insertsLabel _ _ hctx => exact (congrArg still hctx :)
  | endsLabel => rfl

/-- The pass when a call marker was met. -/
def marked (p : Pass) : Pass := { p with hasCallMarker := true }

theorem callMarker_succeeds (h : p.Ready submit) (hw : p.Waits p.beginEvents.toList) (o : Options)
    (call : CallMarker) :
    Succeeds (callMarker o submit call) p fun _ q =>
      ∃ r, Obeys o submit call p.marked r ∧ q = r.beginCleared := by
  have hready : p.marked.Ready submit := { h with stacked := { h.stacked with } }
  have hwaits : p.marked.Waits p.marked.beginEvents.toList := { hw with }
  -- Whatever the call does, the events and packets before it are forgotten.
  have hclear {x : PassM Unit} (hx : Succeeds x p.marked fun _ r => Obeys o submit call p.marked r) :
      Succeeds (do x; clearBegin) p.marked fun _ q =>
        ∃ r, Obeys o submit call p.marked r ∧ q = r.beginCleared :=
    hx.bind fun _ r hr => leads_modify.mpr ⟨r, hr, rfl⟩
  unfold callMarker
  refine leads_bind.mpr (leads_modify.mpr ?_)
  refine leads_ite.mpr ⟨fun hc => hclear ?_, fun hbegin => leads_ite.mpr ⟨fun hc => hclear ?_,
    fun hend => leads_ite.mpr ⟨fun hc => hclear ?_, fun hopens =>
    leads_ite.mpr ⟨fun hc => hclear ?_, fun hcloses =>
    leads_ite.mpr ⟨fun hc => hclear ?_, fun hinserts => hclear ?_⟩⟩⟩⟩⟩
  · exact (beginCommandBuffer_succeeds hready hwaits o call).imp fun _ _ hq =>
      .beginsBuffer hc hq.1 hq.2
  · exact (endCommandBuffer_succeeds hready o call).imp fun _ _ hq => .endsBuffer hc hq.1 hq.2
  · exact (beginLabel_succeeds hready call).imp fun _ _ hq => .beginsLabel hc hq.1 hq.2
  · refine (endLabel_succeeds hready).imp ?_
    rintro _ _ rfl
    exact .endsLabel hc
  · exact (insertLabel_succeeds hready call).imp fun _ _ hq => .insertsLabel hc hq.1 hq.2
  · exact (otherCall_succeeds hready o call).imp fun _ _ hq =>
      .opensCall (by simp [Command.isOther, hbegin, hend, hopens, hcloses, hinserts]) hq.1 hq.2

/-! ## All packets -/

/-- The call that a packet marks, as a no-operation packet may do. -/
def callOf? (op? : Option UInt8) (words : Array UInt32) : Option CallMarker :=
  if op? = some Opcode.nop then CallMarker.ofPacket? words else none

theorem callOf?_eq_none {op : UInt8} {words : Array UInt32} (h : op ≠ Opcode.nop) :
    callOf? (some op) words = none :=
  if_neg fun heq => h (Option.some.inj heq)

/-- What a packet does by its operation. -/
inductive Executes (o : Options) (submit : Nat) (op? : Option UInt8) (words : Array UInt32)
    (p : Pass) : (isCall : Bool) → Pass → Prop
  | works {q : Pass} :
    callOf? op? words = none → Works o submit op? words p q → Executes o submit op? words p false q
  | obeys {q : Pass} {call : CallMarker} :
    callOf? op? words = some call → Obeys o submit call p.marked q →
    Executes o submit op? words p true q.beginCleared

theorem operation_succeeds (h : p.Ready submit) (hw : p.Waits p.beginEvents.toList) (o : Options)
    (op : UInt8) (words : Array UInt32) :
    Succeeds (operation o submit op words) p fun isCall q =>
      Executes o submit (some op) words p isCall q := by
  unfold operation
  split
  · rename_i sync hsync
    have hop : op ≠ Opcode.nop := by
      rintro rfl
      rw [Sync.ofPacket?_nop] at hsync
      cases hsync
    refine (addSync_succeeds h o sync).bind fun _ q hq => ?_
    exact .works (callOf?_eq_none hop) (.sync rfl hsync hq.1 hq.2)
  · refine leads_ite.mpr ⟨fun hevent => ?_, fun _ => leads_ite.mpr ⟨fun hnop => ?_, fun hop => ?_⟩⟩
    · have hop : op ≠ Opcode.nop := by
        rintro rfl
        exact absurd hevent (by decide)
      refine (addEvent_succeeds h op).bind fun _ q hq => ?_
      exact .works (callOf?_eq_none hop) (.event rfl hevent hq.1 hq.2)
    · subst hnop
      have hcall : callOf? (some Opcode.nop) words = CallMarker.ofPacket? words := if_pos rfl
      split
      · rename_i call hmarker
        refine (callMarker_succeeds h hw o call).bind ?_
        rintro _ _ ⟨r, hr, rfl⟩
        exact .obeys (hcall.trans hmarker) hr
      · rename_i hmarker
        exact .works (hcall.trans hmarker) .nothing
    · exact .works (callOf?_eq_none hop) .nothing

/-! ## Buffers -/

/-- The node of a buffer. -/
def bufferNode (ibIndex : Nat) (ib : IndirectBuffer) (kind : IbKind) : Node where
  kind := .ib
  description := ib.text ibIndex kind
  aux := .ib ibIndex kind ib.size !ib.skip

/-- The pass on the engine of a buffer that is entered. -/
def onEngine (p : Pass) (constantEngine : Bool) : Pass :=
  { p with onConstantEngine := constantEngine }

/-- The pass in a buffer that stands for a node. -/
def entered (p : Pass) (node : Nat) (kind : IbKind) : Pass :=
  (p.modifyIbs (IbStack.push · node kind)).beginCleared

/-- The pass when the innermost run of buffers has ended. -/
def popped (p : Pass) : Pass := (p.modifyIbs List.tail).callClosed

/-- The pass when the scope of a call has ended or its command buffer has. -/
def scopeLeft (p : Pass) : Pass :=
  match p.scope with
  | none => p
  | some s =>
    if p.ibDepth < s.depth then { p.levelClosed with scope := none }
    else if p.ibDepth ≤ s.depth then p.levelClosed
    else p

/-- A buffer is entered. As all open buffers run on one engine, it is on theirs, and a buffer is
chained to an open one. -/
structure Enters (o : Options) (submit ibIndex : Nat) (ib : IndirectBuffer) (kind : IbKind)
    (p q : Pass) : Prop where
  engine : ib.constantEngine = p.onConstantEngine ∨ p.drawIbs = [] ∧ p.constantIbs = []
  chained : kind = .chain → p.ibs ≠ []
  adds : p.Adds q [bufferNode ibIndex ib kind] (.on View.withBuffers
    [(ibOwner o (p.onEngine ib.constantEngine) submit kind, p.nodes.size)]) .none
  context : q.context = ((p.onEngine ib.constantEngine).entered p.nodes.size kind).context

/-! ## Submits -/

/-- The node of a submit. -/
def submitNode (index : Nat) (s : Submit) : Node where
  kind := .submit
  description := s.text index
  aux := .submit s.engine index

/-- The edges to a submit. -/
def submitLinks (engine submit : Nat) : Links :=
  .on [.engine] [(engine, submit)] ++ .on [.submit, .allEvent, .rgp] [(rootNode, submit)]

/-- The pass when the buffers of a submit are sorted. -/
def sorted (p : Pass) (submit : Nat) : Pass := { p with
  edges.submit := p.edges.submit.setOwned submit
    (sortByIbIndex p.nodes (p.edges.submit.owned submit)) }

/-- The node of the packets behind the last event. -/
def stateNode (description : String) : Node := { kind := .postambleState, description }

/-- The node of a present. -/
def presentNode (i : Nat) (present : Present) : Node :=
  { kind := .present, description := present.text i }

/-- The pass when all markers are closed. -/
def unmarked (p : Pass) : Pass :=
  { p with markers := [], internalMarkers := [], openCall := none, scope := none }

/-- The pass when its submit is closed. -/
def submitClosed (p : Pass) : Pass := { p with submit := none, drawIbs := [], constantIbs := [] }

/-! ## All changes -/

/-- Everything that can happen to a pass. -/
inductive Change : Pass → Pass → Prop
  | submitBegins {p q : Pass} {s : Submit} {index engine : Nat} :
    p.submit = none → p.engines.lookup s.engine = some engine →
    p.Adds q [submitNode index s] (submitLinks engine p.nodes.size) .none →
    q.context = { p.context with submit := some p.nodes.size } → Change p q
  | enters {p q : Pass} {o : Options} {submit ibIndex : Nat} {ib : IndirectBuffer} {kind : IbKind} :
    p.submit = some submit → Enters o submit ibIndex ib kind p q → Change p q
  | leaves {p : Pass} {r : IbRun} :
    p.ibs.head? = some r → Change p p.popped.scopeLeft.beginCleared
  | logs {p q : Pass} {o : Options} {submit buffer va : Nat} {kind : PacketKind} {header : UInt32}
      {words : Array UInt32} :
    p.submit = some submit → p.ibs.top? = some buffer →
    Logs o submit buffer va kind header words p q → Change p q
  | works {p q : Pass} {o : Options} {submit : Nat} {op? : Option UInt8} {words : Array UInt32} :
    p.submit = some submit → Works o submit op? words p q → Change p q
  | shares {p q : Pass} {packet : Nat} :
    packet ∈ p.beginPackets → p.Shares packet q → Change p q
  | marks {p : Pass} : Change p p.marked
  | obeys {p q : Pass} {o : Options} {submit : Nat} {call : CallMarker} :
    p.submit = some submit → p.ibs ≠ [] → Obeys o submit call p q → Change p q
  | clears {p : Pass} : Change p p.beginCleared
  | sorts {p : Pass} {submit : Nat} : p.submit = some submit → Change p (p.sorted submit)
  | unmarks {p : Pass} : Change p p.unmarked
  /-- The packets behind the last event get a node of their own. -/
  | endsState {p q : Pass} {submit : Nat} {description : String} :
    p.submit = some submit →
    p.Adds q [stateNode description] (.on View.withEvents [(submit, p.nodes.size)])
      (.on View.withEvents (p.packets.toList.map (p.nodes.size, ·))) →
    q.context = { p.context with packets := #[] } → Change p q
  | presents {p q : Pass} {i : Nat} {present : Present} :
    p.Adds q [presentNode i present] (.on View.withEvents [(rootNode, p.nodes.size)]) .none →
    q.context = p.context → Change p q
  | submitEnds {p : Pass} :
    p.packets = #[] → p.markers = [] → p.scope = none → Change p p.submitClosed.beginCleared

end Pass

end CaptureForest
