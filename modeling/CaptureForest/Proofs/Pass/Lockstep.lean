import CaptureForest.Proofs.Agree
import CaptureForest.Proofs.Pass.Renames
import CaptureForest.Proofs.Pass.Submit

/-! # Steps in lockstep

A pass and the same pass in other numbers (`Pass.Renames`) take each step alike: both fail for the
same cause, or both end and are alike again. The options may differ in how chained buffers are
listed; where a buffer is entered, the owners have to fit then. -/

namespace CaptureForest

/-- Options that differ at most in how chained buffers are listed. -/
structure Options.Alike (o o' : Options) : Prop where
  layouts : o'.layouts = o.layouts
  printer : o'.printer = o.printer

variable {R : Renaming}

namespace Pass

variable {o o' : Options} {p p' q q' : Pass} {submit node : Nat}

/-! ## Questions -/

namespace Recalls

theorem innermost (h : p.Recalls R p') : p'.innermost (R submit) = R (p.innermost submit) :=
  (congrArg (Pass.innermost · (R submit)) h :).trans innermost_renamed

theorem bufferOwner (h : p.Recalls R p') : p'.bufferOwner (R submit) = R (p.bufferOwner submit) :=
  (congrArg (Pass.bufferOwner · (R submit)) h :).trans bufferOwner_renamed

theorem inScope (h : p.Recalls R p') : p'.inScope = p.inScope :=
  (congrArg Pass.inScope h :).trans inScope_renamed

theorem ibs (h : p.Recalls R p') : p'.ibs = p.ibs.renamed R := by
  have hibs : p'.ibs = (p.renamed R).ibs := (congrArg Pass.ibs h :)
  rw [hibs, ibs_renamed]

theorem ibOwner (h : p.Recalls R p') (o : Options) (kind : IbKind) :
    Pass.ibOwner o p' (R submit) kind = R (Pass.ibOwner o p submit kind) := by
  have howner : Pass.ibOwner o p' (R submit) kind = Pass.ibOwner o (p.renamed R) (R submit) kind :=
    (congrArg (Pass.ibOwner o · (R submit) kind) h :)
  rw [howner, ibOwner_renamed]

theorem submit? (h : p.Recalls R p') : p'.submit = p.submit.map R := (congrArg Pass.submit h :)

theorem markers (h : p.Recalls R p') : p'.markers = p.markers.map R := (congrArg Pass.markers h :)

theorem packets (h : p.Recalls R p') : p'.packets = p.packets.map R := (congrArg Pass.packets h :)

theorem beginPackets (h : p.Recalls R p') : p'.beginPackets = p.beginPackets.map R :=
  (congrArg Pass.beginPackets h :)

theorem beginEvents (h : p.Recalls R p') :
    p'.beginEvents = p.beginEvents.map (PendingEvent.renamed R) :=
  (congrArg Pass.beginEvents h :)

theorem events (h : p.Recalls R p') : p'.events = p.events.map R := (congrArg Pass.events h :)

theorem hasCallMarker (h : p.Recalls R p') : p'.hasCallMarker = p.hasCallMarker :=
  (congrArg Pass.hasCallMarker h :)

theorem numEvents (h : p.Recalls R p') : p'.numEvents = p.numEvents := (congrArg Pass.numEvents h :)

theorem numLabels (h : p.Recalls R p') : p'.numLabels = p.numLabels := (congrArg Pass.numLabels h :)

theorem onConstantEngine (h : p.Recalls R p') : p'.onConstantEngine = p.onConstantEngine :=
  (congrArg Pass.onConstantEngine h :)

theorem presents (h : p.Recalls R p') : p'.presents = p.presents := (congrArg Pass.presents h :)

theorem metadataVersion (h : p.Recalls R p') : p'.metadataVersion = p.metadataVersion :=
  (congrArg Pass.metadataVersion h :)

end Recalls

/-! ## Events -/

/-- The pass when a run of packets has ended with a node. -/
def runEnded (p : Pass) (submit node : Nat) : Pass := { p with
  packets := #[]
  beginEvents := p.beginEvents.push (p.pendingEvent submit node) }

theorem runEnded_renamed :
    (p.runEnded submit node).renamed R = (p.renamed R).runEnded (R submit) (R node) := by
  unfold runEnded
  rw [pendingEvent_renamed]
  simp [renamed]

/-- The pass when a run of packets has ended with an event. -/
def eventEnded (p : Pass) (submit node : Nat) : Pass := { p.runEnded submit node with
  numEvents := p.numEvents + 1
  events := p.events.push node }

theorem eventEnded_renamed :
    (p.eventEnded submit node).renamed R = (p.renamed R).eventEnded (R submit) (R node) := by
  have hrun : (p.runEnded submit node).renamed R = (p.renamed R).runEnded (R submit) (R node) :=
    runEnded_renamed
  unfold eventEnded
  rw [← hrun]
  simp [renamed, runEnded]

namespace Renames

/-- The edge from the innermost marker to the next node. -/
theorem innermost_link (h : p.Renames R p') (hq : q.Recalls R q') :
    Links.on View.withEvents [(q'.innermost (R submit), p'.nodes.size)] =
      (Links.on View.withEvents [(q.innermost submit, p.nodes.size)]).renamed R := by
  rw [Links.renamed_on, hq.innermost, h.size_eq]
  rfl

/-- The edges from the next node to the packets of its run. -/
theorem run_links (h : p.Renames R p') :
    Links.on View.withEvents (p'.packets.toList.map (p'.nodes.size, ·)) =
      (Links.on View.withEvents (p.packets.toList.map (p.nodes.size, ·))).renamed R := by
  rw [Links.renamed_on, EdgeLog.renamed_fan, h.recalls.packets, h.size_eq, Array.toList_map]

theorem addSync_agrees (h : p.Renames R p') (hp : p.Ready submit) (hp' : p'.Ready (R submit))
    (ho : o.Alike o') (sync : Sync) :
    Agree (addSync o submit sync) p (addSync o' (R submit) sync) p'
      fun _ q _ q' => q.Renames R q' := by
  refine .of_succeeds (addSync_succeeds hp o sync) (addSync_succeeds hp' o' sync) ?_
  rintro _ q _ q' ⟨hq, hctx⟩ ⟨hq', hctx'⟩
  have hended : (p.runEnded submit p.nodes.size).Recalls R
      (p'.runEnded (R submit) (R p.nodes.size)) :=
    h.recalls.map (·.runEnded submit p.nodes.size) (·.runEnded (R submit) (R p.nodes.size))
      (fun _ => runEnded_renamed) fun _ => rfl
  rw [← h.size_eq] at hended
  refine h.adds hq hq' (hended.congr hctx hctx') ?_ (h.innermost_link h.recalls) h.run_links
  rw [syncNode, ho.layouts, syncNode]

theorem addEvent_agrees (h : p.Renames R p') (hp : p.Ready submit) (hp' : p'.Ready (R submit))
    (op : UInt8) :
    Agree (addEvent submit op) p (addEvent (R submit) op) p' fun _ q _ q' => q.Renames R q' := by
  refine .of_succeeds (addEvent_succeeds hp op) (addEvent_succeeds hp' op) ?_
  rintro _ q _ q' ⟨hq, hctx⟩ ⟨hq', hctx'⟩
  have hended : (p.eventEnded submit p.nodes.size).Recalls R
      (p'.eventEnded (R submit) (R p.nodes.size)) :=
    h.recalls.map (·.eventEnded submit p.nodes.size) (·.eventEnded (R submit) (R p.nodes.size))
      (fun _ => eventEnded_renamed) fun _ => rfl
  rw [← h.size_eq] at hended
  refine h.adds hq hq' (hended.congr hctx hctx') ?_ (h.innermost_link h.recalls) h.run_links
  rw [h.recalls.numEvents]

/-- The open markers share a packet alike. -/
theorem shareWithMarkers_agrees {packet : Nat} (h : p.Renames R p') (hp : p.Ready submit)
    (hp' : p'.Ready (R submit)) (hpacket : packet < p.nodes.size) :
    Agree (shareWithMarkers packet) p (shareWithMarkers (R packet)) p'
      fun _ q _ q' => q.Renames R q' := by
  refine .of_succeeds (shareWithMarkers_succeeds hp hpacket)
    (shareWithMarkers_succeeds hp' (h.lt_iff.mpr hpacket)) ?_
  rintro _ q _ q' ⟨hq, hctx⟩ ⟨hq', hctx'⟩
  refine h.adds hq hq' (h.recalls.congr hctx hctx') rfl rfl ?_
  rw [Links.renamed_on, EdgeLog.renamed_map_left, h.recalls.markers]

/-! ## Recorded calls -/

theorem callNode_eq (h : p.Renames R p') (ho : o.Alike o') (call : CallMarker) (kind : MarkerKind) :
    callNode o' p'.metadataVersion call kind = callNode o p.metadataVersion call kind := by
  rw [callNode, ho.printer, h.recalls.metadataVersion, callNode]

theorem takeover_renamed {owner : Nat} {moved : List Nat} :
    (takeover owner node moved).renamed R = takeover (R owner) (R node) (moved.map R) := by
  rw [takeover, takeover, Links.renamed_on, ← EdgeLog.renamed_fan]
  rfl

theorem beginCommandBuffer_agrees (h : p.Renames R p') (hp : p.Ready submit)
    (hp' : p'.Ready (R submit)) (hw : p.Waits p.beginEvents.toList)
    (hw' : p'.Waits p'.beginEvents.toList) (ho : o.Alike o') (call : CallMarker) :
    Agree (beginCommandBuffer o submit call) p (beginCommandBuffer o' (R submit) call) p'
      fun _ q _ q' => q.Renames R q' := by
  refine .of_succeeds (beginCommandBuffer_succeeds hp hw o call)
    (beginCommandBuffer_succeeds hp' hw' o' call) ?_
  rintro _ q _ q' ⟨hq, hctx⟩ ⟨hq', hctx'⟩
  have hmoved : p'.beginEvents.toList.map (·.node) =
      (p.beginEvents.toList.map (·.node)).map R := by
    rw [h.recalls.beginEvents, Array.toList_map, List.map_map, List.map_map]
    rfl
  have howned : takeover (p'.callClosed.bufferOwner (R submit)) p'.nodes.size
      (p'.beginEvents.toList.map (·.node)) =
      (takeover (p.callClosed.bufferOwner submit) p.nodes.size
        (p.beginEvents.toList.map (·.node))).renamed R := by
    rw [takeover_renamed, h.recalls.callClosed.bufferOwner, hmoved, h.size_eq]
  have hshared : Links.on View.withEvents (p'.beginPackets.toList.map (p'.nodes.size, ·)) =
      (Links.on View.withEvents (p.beginPackets.toList.map (p.nodes.size, ·))).renamed R := by
    rw [Links.renamed_on, EdgeLog.renamed_fan, h.recalls.beginPackets, h.size_eq, Array.toList_map]
  rw [h.callNode_eq ho, howned, hmoved, hshared] at hq'
  rw [h.size_eq] at hctx'
  exact h.regroups hq hq' Links.carries_renamed
    ((h.recalls.callClosed.scopeEntered.beginCleared.opened p.nodes.size).congr hctx hctx')

theorem endCommandBuffer_agrees (h : p.Renames R p') (hp : p.Ready submit)
    (hp' : p'.Ready (R submit)) (ho : o.Alike o') (call : CallMarker) :
    Agree (endCommandBuffer o submit call) p (endCommandBuffer o' (R submit) call) p'
      fun _ q _ q' => q.Renames R q' := by
  refine .of_succeeds (endCommandBuffer_succeeds hp o call)
    (endCommandBuffer_succeeds hp' o' call) ?_
  rintro _ q _ q' ⟨hq, hctx⟩ ⟨hq', hctx'⟩
  have hclosed := h.recalls.callClosed
  refine h.adds hq hq' ?_ (congrArg ([·]) (h.callNode_eq ho call _)) (h.innermost_link hclosed) rfl
  rw [hclosed.inScope] at hctx'
  split at hctx
  · rw [if_pos ‹_›] at hctx'
    exact hclosed.levelClosed.congr hctx hctx'
  · rw [if_neg ‹_›] at hctx'
    exact hclosed.congr hctx hctx'

/-- A label has been numbered. -/
theorem numbered (h : p.Renames R p') (hq : q.Recalls R q') :
    Recalls R { q with numLabels := p.numLabels + 1 } { q' with numLabels := p'.numLabels + 1 } := by
  rw [h.recalls.numLabels]
  exact hq.map (fun q => { q with numLabels := p.numLabels + 1 })
    (fun q => { q with numLabels := p.numLabels + 1 }) (fun _ => rfl) fun _ => rfl

theorem beginLabel_agrees (h : p.Renames R p') (hp : p.Ready submit) (hp' : p'.Ready (R submit))
    (call : CallMarker) :
    Agree (beginLabel submit call) p (beginLabel (R submit) call) p'
      fun _ q _ q' => q.Renames R q' := by
  refine .of_succeeds (beginLabel_succeeds hp call) (beginLabel_succeeds hp' call) ?_
  rintro _ q _ q' ⟨hq, hctx⟩ ⟨hq', hctx'⟩
  have hclosed := h.recalls.callClosed
  rw [h.size_eq] at hctx'
  refine h.adds hq hq' ((h.numbered (hclosed.pushed p.nodes.size)).congr hctx hctx') ?_
    (h.innermost_link hclosed) rfl
  rw [h.recalls.numLabels]

theorem insertLabel_agrees (h : p.Renames R p') (hp : p.Ready submit) (hp' : p'.Ready (R submit))
    (call : CallMarker) :
    Agree (insertLabel submit call) p (insertLabel (R submit) call) p'
      fun _ q _ q' => q.Renames R q' := by
  refine .of_succeeds (insertLabel_succeeds hp call) (insertLabel_succeeds hp' call) ?_
  rintro _ q _ q' ⟨hq, hctx⟩ ⟨hq', hctx'⟩
  have hclosed := h.recalls.callClosed
  refine h.adds hq hq' ((h.numbered hclosed).congr hctx hctx') ?_ (h.innermost_link hclosed) rfl
  rw [h.recalls.numLabels]

/-- The innermost label is closed alike. -/
theorem labelClosed (h : p.Renames R p') : p.labelClosed.Renames R p'.labelClosed := by
  have hbelow : p'.belowLabel = p.belowLabel.map R := by
    unfold belowLabel
    rw [h.recalls.markers]
    cases p.markers with
    | nil => rfl
    | cons top below =>
      have hkind : p'.nodes.markerKind? (R top) = p.nodes.markerKind? top := by
        rw [Nodes.markerKind?, Nodes.aux?, h.nodes]
        rfl
      rw [List.map_cons]
      dsimp only
      rw [hkind, apply_ite (List.map R), List.map_cons]
  refine h.congr ?_ rfl rfl rfl rfl
  refine (h.recalls.map (fun q => { q with
    markers := p.belowLabel
    internalMarkers := p.belowLabel }) (fun q => { q with
    markers := p.belowLabel.map R
    internalMarkers := p.belowLabel.map R }) (fun _ => rfl) fun _ => rfl).congr rfl ?_
  rw [Pass.labelClosed, hbelow]

theorem endLabel_agrees (h : p.Renames R p') (hp : p.Ready submit) (hp' : p'.Ready (R submit)) :
    Agree endLabel p endLabel p' fun _ q _ q' => q.Renames R q' := by
  refine .of_succeeds (endLabel_succeeds hp) (endLabel_succeeds hp') ?_
  rintro _ _ _ _ rfl rfl
  exact (h.congr h.recalls.callClosed rfl rfl rfl rfl).labelClosed

theorem otherCall_agrees (h : p.Renames R p') (hp : p.Ready submit) (hp' : p'.Ready (R submit))
    (ho : o.Alike o') (call : CallMarker) :
    Agree (otherCall o submit call) p (otherCall o' (R submit) call) p'
      fun _ q _ q' => q.Renames R q' := by
  refine .of_succeeds (otherCall_succeeds hp o call) (otherCall_succeeds hp' o' call) ?_
  rintro _ q _ q' ⟨hq, hctx⟩ ⟨hq', hctx'⟩
  have hclosed := h.recalls.callClosed
  rw [h.size_eq] at hctx'
  exact h.adds hq hq' (((hclosed.scopeEnded.opened p.nodes.size).scopeBegun call.command
    p.nodes.size).congr hctx hctx') (congrArg ([·]) (h.callNode_eq ho call _))
    (h.innermost_link hclosed) rfl

theorem callMarker_agrees (h : p.Renames R p') (hp : p.Ready submit) (hp' : p'.Ready (R submit))
    (hw : p.Waits p.beginEvents.toList) (hw' : p'.Waits p'.beginEvents.toList) (ho : o.Alike o')
    (call : CallMarker) :
    Agree (callMarker o submit call) p (callMarker o' (R submit) call) p'
      fun _ q _ q' => q.Renames R q' := by
  have hm : p.marked.Renames R p'.marked := h.congr h.recalls.marked rfl rfl rfl rfl
  have hmp : p.marked.Ready submit := { hp with stacked := { hp.stacked with } }
  have hmp' : p'.marked.Ready (R submit) := { hp' with stacked := { hp'.stacked with } }
  have hclear {x x' : PassM Unit}
      (hx : Agree x p.marked x' p'.marked fun _ q _ q' => q.Renames R q') :
      Agree (do x; clearBegin) p.marked (do x'; clearBegin) p'.marked
        fun _ q _ q' => q.Renames R q' :=
    hx.bind fun _ q _ q' hq => .modify (hq.congr hq.recalls.beginCleared rfl rfl rfl rfl)
  unfold callMarker
  refine .modify_bind (.ite (fun _ => hclear ?_) fun _ => .ite (fun _ => hclear ?_) fun _ =>
    .ite (fun _ => hclear ?_) fun _ => .ite (fun _ => hclear ?_) fun _ =>
    .ite (fun _ => hclear ?_) fun _ => hclear ?_)
  · exact hm.beginCommandBuffer_agrees hmp hmp' { hw with } { hw' with } ho call
  · exact hm.endCommandBuffer_agrees hmp hmp' ho call
  · exact hm.beginLabel_agrees hmp hmp' call
  · exact hm.endLabel_agrees hmp hmp'
  · exact hm.insertLabel_agrees hmp hmp' call
  · exact hm.otherCall_agrees hmp hmp' ho call

/-- The operation of a packet does the same, and is a call for both passes or for none. -/
theorem operation_agrees (h : p.Renames R p') (hp : p.Ready submit) (hp' : p'.Ready (R submit))
    (hw : p.Waits p.beginEvents.toList) (hw' : p'.Waits p'.beginEvents.toList) (ho : o.Alike o')
    (op : UInt8) (words : Array UInt32) :
    Agree (operation o submit op words) p (operation o' (R submit) op words) p'
      fun isCall q isCall' q' => isCall = isCall' ∧ q.Renames R q' := by
  have hreturn {x x' : PassM Unit} (isCall : Bool)
      (hx : Agree x p x' p' fun _ q _ q' => q.Renames R q') :
      Agree (do x; return isCall) p (do x'; return isCall) p'
        fun isCall q isCall' q' => isCall = isCall' ∧ q.Renames R q' :=
    hx.bind fun _ _ _ _ hq => .pure ⟨rfl, hq⟩
  unfold operation
  cases Sync.ofPacket? op words with
  | some sync => exact hreturn false (h.addSync_agrees hp hp' ho sync)
  | none =>
    refine .ite (fun _ => hreturn false (h.addEvent_agrees hp hp' op)) fun _ =>
      .ite (fun _ => ?_) fun _ => .pure ⟨rfl, h⟩
    cases CallMarker.ofPacket? words with
    | some call => exact hreturn true (h.callMarker_agrees hp hp' hw hw' ho call)
    | none => exact .pure ⟨rfl, h⟩

end Renames

/-! ## Packets -/

theorem fieldLog_renamed {parent first first' count : Nat}
    (hfresh : ∀ i, R (first + i) = first' + i) :
    (fieldLog parent first count).renamed R = fieldLog (R parent) first' count := by
  unfold fieldLog
  rw [EdgeLog.renamed_fan]
  congr 1
  rw [List.range'_eq_map_range, List.range'_eq_map_range, List.map_map]
  exact List.map_congr_left fun i _ => hfresh i

/-- The nodes behind those that come next have numbers behind theirs. -/
theorem fresh_add {first first' : Nat} (hfresh : ∀ i, R (first + i) = first' + i) (n i : Nat) :
    R (first + n + i) = first' + n + i := by
  rw [Nat.add_assoc, hfresh, Nat.add_assoc]

theorem registerLog_renamed {packet first first' : Nat} {regs : List (String × List String)}
    (hfresh : ∀ i, R (first + i) = first' + i) :
    (registerLog packet first regs).renamed R = registerLog (R packet) first' regs := by
  induction regs generalizing first first' with
  | nil => rfl
  | cons reg regs ih =>
    have hfirst : R first = first' := hfresh 0
    have hnext := fresh_add hfresh 1
    have hfields : (fieldLog first (first + 1) reg.2.length).renamed R =
        fieldLog (R first) (first' + 1) reg.2.length := fieldLog_renamed hnext
    have hregs := ih (fresh_add hnext reg.2.length)
    rw [hfirst] at hfields
    rw [registerLog, registerLog, ← hregs, ← hfields, ← hfirst]
    simp [EdgeLog.renamed]

theorem packetLog_renamed {packet packet' : Nat} (ho : o.Alike o')
    (hfresh : ∀ i, R (packet + i) = packet' + i) (kind : PacketKind) (header : UInt32)
    (words : Array UInt32) : (packetLog o packet kind header words).renamed R =
      packetLog o' packet' kind header words := by
  have hpacket : R packet = packet' := hfresh 0
  have hbelow := fresh_add hfresh 1
  unfold packetLog packetRegs
  rw [ho.layouts, ← hpacket]
  rw [← hpacket] at hbelow
  split
  · exact fieldLog_renamed hbelow
  · exact registerLog_renamed hbelow

theorem packetBelow_eq (ho : o.Alike o') (constantEngine : Bool) (kind : PacketKind)
    (header : UInt32) (words : Array UInt32) :
    packetBelow o' constantEngine kind header words =
      packetBelow o constantEngine kind header words := by
  unfold packetBelow packetRegs
  rw [ho.layouts]

/-- Files a packet under the submit and the buffer. -/
def file (o : Options) (submit buffer va : Nat) (kind : PacketKind) (header : UInt32)
    (words : Array UInt32) : PassM Nat := do
  let packet ← addPacket o va kind header words
  addShared View.withPackets submit packet
  addShared View.withBuffers buffer packet
  modify fun p => { p with
    packets := p.packets.push packet
    beginPackets := p.beginPackets.push packet }
  return packet

theorem file_bind {α : Type} {buffer va : Nat} {kind : PacketKind} {header : UInt32}
    {words : Array UInt32} {f : Nat → PassM α} :
    (do
      let packet ← addPacket o va kind header words
      addShared View.withPackets submit packet
      addShared View.withBuffers buffer packet
      modify fun p => { p with
        packets := p.packets.push packet
        beginPackets := p.beginPackets.push packet }
      f packet) = file o submit buffer va kind header words >>= f := by
  simp only [file, bind_assoc, pure_bind]

theorem openSubmit_agrees (h : p.Recalls R p') (hs : p.submit = some submit) :
    Agree openSubmit p openSubmit p' fun n q n' q' =>
      n = submit ∧ n' = R submit ∧ q = p ∧ q' = p' := by
  refine .get_bind ?_
  rw [h.submit?, hs]
  exact .pure ⟨rfl, rfl, rfl, rfl⟩

/-- What two passes require, both have or both lack. -/
theorem require_agrees {α β : Type} {a? : Option α} {b? : Option β} (f : α → β)
    (hb : b? = a?.map f) (otherwise : Violation) :
    Agree (require a? otherwise) p (require b? otherwise) p'
      fun a q b q' => a? = some a ∧ b = f a ∧ q = p ∧ q' = p' := by
  subst hb
  cases a? with
  | none => exact .throw _
  | some a => exact .pure ⟨rfl, rfl, rfl, rfl⟩

/-- What is open in a pass is open in the other. -/
theorem Recalls.isOpen (h : p.Recalls R p') (hs : p.submit = some submit) :
    p'.submit = some (R submit) := by
  rw [h.submit?, hs]
  rfl

/-- What a packet does keeps a pass sound. -/
theorem Executes.sound {op? : Option UInt8} {words : Array UInt32} {isCall : Bool}
    (hq : Executes o submit op? words p isCall q) (h : p.Sound) (hs : p.submit = some submit) :
    q.Sound ∧ p.Quiet q := by
  cases hq with
  | works _ hq => exact hq.sound h hs
  | obeys _ hq =>
    obtain ⟨hsound, hquiet⟩ := hq.sound h.marked hs
    exact ⟨hsound.beginCleared, { hquiet with }⟩

namespace Renames

theorem file_agrees {buffer va : Nat} {kind : PacketKind} {header : UInt32} {words : Array UInt32}
    (h : p.Renames R p') (hs : submit < p.nodes.size) (hb : buffer < p.nodes.size)
    (ho : o.Alike o') :
    Agree (file o submit buffer va kind header words) p
      (file o' (R submit) (R buffer) va kind header words) p'
      fun n q n' q' => (n = p.nodes.size ∧ n' = R n ∧ q.Renames R q') ∧
        Logs o submit buffer va kind header words p q ∧
        Logs o' (R submit) (R buffer) va kind header words p' q' := by
  have hfile {o : Options} {submit buffer : Nat} {p : Pass} (h : p.Sized)
      (hs : submit < p.nodes.size) (hb : buffer < p.nodes.size) :
      Leads (file o submit buffer va kind header words) p
        (fun n q => va < 1 <<< Aux.packetAddressBits ∧ n = p.nodes.size ∧
          Logs o submit buffer va kind header words p q)
        fun e _ => e = .violation (.packetAddressTooLarge va) ∧
          1 <<< Aux.packetAddressBits ≤ va :=
    file_leads h hs hb (fun _ hq hva => leads_pure.mpr ⟨hva, rfl, hq⟩) fun hva _ => ⟨rfl, hva⟩
  refine .of_leads Nat.not_le.mpr (hfile h.sized hs hb)
    (hfile h.sized' (h.lt_iff.mpr hs) (h.lt_iff.mpr hb)) ?_
  rintro _ q _ q' - ⟨rfl, hq⟩ ⟨rfl, hq'⟩
  refine ⟨⟨rfl, h.size_eq, ?_⟩, hq, hq'⟩
  have hwaits := h.recalls.packetWaits p.nodes.size
  rw [← h.size_eq] at hwaits
  refine h.adds hq.adds hq'.adds (hwaits.congr hq.context hq'.context) ?_ ?_ ?_
  · rw [h.recalls.onConstantEngine, packetBelow_eq ho]
  · rw [Links.renamed_on, packetLog_renamed ho h.fresh]
  · rw [Links.renamed_append, Links.renamed_on, Links.renamed_on, h.size_eq]
    rfl

theorem packet_agrees (h : p.Renames R p') (hp : p.Sound) (hp' : p'.Sound)
    (hs : p.submit = some submit) (ho : o.Alike o') (m : Reader) (index va : Nat)
    (kind : PacketKind) (header : UInt32) :
    Agree (packet o m index va kind header) p (packet o' m index va kind header) p'
      fun _ q _ q' => q.Renames R q' := by
  unfold packet
  refine .ite (fun _ => .pure h) fun _ => (openSubmit_agrees h.recalls hs).bind ?_
  rintro submit p _ p' ⟨rfl, rfl, rfl, rfl⟩
  have htop : p'.ibs.top? = p.ibs.top?.map R := by rw [h.recalls.ibs, IbStack.top?_renamed]
  refine .get_bind ((require_agrees R htop .packetOutsideBuffer).bind ?_)
  rintro buffer p _ p' ⟨hbuffer, rfl, rfl, rfl⟩
  obtain ⟨r, hr, hn⟩ := IbStack.top?_mem hbuffer
  have hlt := Nodes.kind?_lt (hp.buffers r (ibs_mem hr) buffer hn)
  refine Agree.bind (Q := fun words q words' q' => words' = words ∧ q = _ ∧ q' = _)
    (.ofExcept fun _ _ => ⟨rfl, rfl, rfl⟩) ?_
  rintro _ p words p' ⟨rfl, rfl, rfl⟩
  rw [file_bind, file_bind]
  refine (h.file_agrees (Nodes.kind?_lt (hp.submit submit hs)) hlt ho).bind ?_
  rintro _ q _ q' ⟨⟨rfl, rfl, hq⟩, hlogs, hlogs'⟩
  have hqs := hlogs.sound hp
  have hqs' := hlogs'.sound hp'
  have hsubmit : q.submit = some submit := (congrArg Site.submit hlogs.site :).trans hs
  have hsubmit' := hq.recalls.isOpen hsubmit
  have hshare {r r' : Pass} (hr : r.Renames R r') (hrs : r.Sound ∧ q.Quiet r)
      (hrs' : r'.Sound ∧ q'.Quiet r') :
      Agree (shareWithMarkers p.nodes.size) r (shareWithMarkers (R p.nodes.size)) r'
        fun _ q _ q' => q.Renames R q' := by
    obtain ⟨new, hnodes, -⟩ := hrs.2.nodes
    have hkept : r.nodes.kind? p.nodes.size = some .packet := by
      rw [hnodes]
      exact Nodes.kind?_append hlogs.packet_kind?
    exact hr.shareWithMarkers_agrees
      (hrs.1.ready ((congrArg Site.submit hrs.2.site :).trans hsubmit))
      (hrs'.1.ready ((congrArg Site.submit hrs'.2.site :).trans hsubmit')) (Nodes.kind?_lt hkept)
  dsimp only
  split
  · rename_i op hop
    refine ((hq.operation_agrees (hqs.ready hsubmit) (hqs'.ready hsubmit') hqs.waits hqs'.waits ho
      op words.toArray).and_leads
      (operation_succeeds (hqs.ready hsubmit) hqs.waits o op words.toArray)
      (operation_succeeds (hqs'.ready hsubmit') hqs'.waits o' op words.toArray)).bind ?_
    rintro isCall r _ r' ⟨⟨rfl, hr⟩, hexec, hexec'⟩
    exact .ite (fun _ => .pure hr) fun _ =>
      hshare hr (hexec.sound hqs hsubmit) (hexec'.sound hqs' hsubmit')
  · exact hshare hq ⟨hqs, .refl q⟩ ⟨hqs', .refl q'⟩

end Renames

end Pass

end CaptureForest
