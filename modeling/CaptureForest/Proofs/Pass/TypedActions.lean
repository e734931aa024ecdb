import CaptureForest.Pass.Steps
import CaptureForest.Proofs.Pass.Typed

/-! # Actions that keep nodes typed

Where an action adds a node it chooses the kind and the data apart. It always chooses data of the kind,
so every action keeps the nodes typed (`Pass.KeepsTyped`). This asks nothing else of the pass: steps
may come in any order, and an action may fail at any point. -/

namespace CaptureForest

namespace Aux

variable {aux : Aux}

theorem ib_mem_kinds {index size : Nat} {kind : IbKind} {captured : Bool}
    (h : ofIb? index kind size captured = some aux) : .ib ∈ aux.kinds := by
  obtain ⟨-, heq⟩ := Option.ite_none_right_eq_some.mp h
  cases heq
  exact List.mem_singleton_self _

theorem packet_mem_kinds {address : Nat} {opcode : UInt8} {ce : Bool}
    (h : ofPacket? address opcode ce = some aux) : .packet ∈ aux.kinds := by
  obtain ⟨-, heq⟩ := Option.ite_none_right_eq_some.mp h
  cases heq
  exact List.mem_singleton_self _

end Aux

namespace Pass

/-- Whatever an action does, and even where it fails, every node has the data of its kind if every
node had before. -/
abbrev KeepsTyped {α : Type} (x : PassM α) : Prop := Upholds (fun p => p.nodes.Typed) x

variable {α β : Type} {o : Options} {submit node : Nat} {call : CallMarker}

/-! ## Nodes and edges -/

theorem addNode_keepsTyped {node : Node} (h : node.kind ∈ node.aux.kinds) :
    KeepsTyped (addNode node) := fun p hp => by
  have hadded : Nodes.Typed (p.nodes ++ [node]) := hp.append fun added hmem => by
    rw [List.mem_singleton.mp hmem]
    exact Node.isTyped_iff.mpr h
  have hpush : p.nodes.push node = p.nodes ++ [node] := by simp
  exact .intro rfl (hpush ▸ hadded)

theorem modify_keepsTyped {f : Pass → Pass} (h : ∀ p, (f p).nodes = p.nodes) :
    KeepsTyped (modify f) :=
  .modify fun p hp => (h p).symm ▸ hp

theorem editEdges_keepsTyped {v : View} {edit : EdgeEdit α} : KeepsTyped (editEdges v edit) :=
  fun p hp => by
    unfold Leads editEdges
    dsimp only
    cases edit (p.edges.get v) with
    | ok => exact hp
    | error => exact hp

theorem addOwned_keepsTyped {views : List View} {node child : Nat} :
    KeepsTyped (addOwned views node child) :=
  .forM fun _ => editEdges_keepsTyped

theorem addShared_keepsTyped {views : List View} {node child : Nat} :
    KeepsTyped (addShared views node child) :=
  .forM fun _ => editEdges_keepsTyped

theorem openSubmit_keepsTyped : KeepsTyped openSubmit := by
  unfold openSubmit
  refine .bind .get fun p => ?_
  split
  · exact .pure
  · exact .throw

/-- What follows a required value knows where it is from. -/
theorem require_keepsTyped {value : Option α} {otherwise : Violation} {f : α → PassM β}
    (hf : ∀ a, value = some a → KeepsTyped (f a)) : KeepsTyped (require value otherwise >>= f) := by
  cases value with
  | none => exact fun _ hp => hp
  | some a => exact hf a rfl

theorem attachToMarkers_keepsTyped : KeepsTyped (attachToMarkers submit node) := by
  refine .bind .get fun _ => .bind .get fun _ => ?_
  exact .bind addOwned_keepsTyped fun _ => addOwned_keepsTyped

theorem clearBegin_keepsTyped : KeepsTyped clearBegin :=
  modify_keepsTyped fun _ => rfl

/-! ## Recorded calls -/

theorem closeCall_keepsTyped : KeepsTyped closeCall := by
  unfold closeCall
  refine .bind .get fun p => ?_
  split
  · refine .bind (modify_keepsTyped fun _ => rfl) fun _ => .bind .get fun _ => .ite ?_ ?_
    · exact .bind .throw fun _ => modify_keepsTyped fun _ => rfl
    · exact modify_keepsTyped fun _ => rfl
  · exact .pure

theorem pushMarker_keepsTyped {marker : Nat} : KeepsTyped (pushMarker marker) :=
  modify_keepsTyped fun _ => rfl

theorem openMarker_keepsTyped {marker : Nat} : KeepsTyped (openMarker marker) :=
  .bind pushMarker_keepsTyped fun _ => modify_keepsTyped fun _ => rfl

theorem openLevel_keepsTyped : KeepsTyped openLevel := by
  unfold openLevel
  refine .bind .get fun p => ?_
  split
  · refine .ite .pure (.bind pushMarker_keepsTyped fun _ => ?_)
    exact .bind (modify_keepsTyped fun _ => rfl) fun _ => .pure
  · exact .pure

theorem closeLevel_keepsTyped : KeepsTyped closeLevel := by
  refine modify_keepsTyped fun p => ?_
  split
  · split <;> rfl
  · rfl

theorem detachEvents_keepsTyped {events : List PendingEvent} : KeepsTyped (detachEvents events) := by
  have hdetach {v : View} {owned : List (Nat × Nat)} : KeepsTyped (detach v owned) :=
    .forM fun _ => editEdges_keepsTyped
  exact .bind hdetach fun _ => hdetach

theorem addCallNode_keepsTyped {kind : MarkerKind} : KeepsTyped (addCallNode o call kind) :=
  .bind .get fun _ => addNode_keepsTyped (List.mem_singleton_self _)

theorem beginCommandBuffer_keepsTyped : KeepsTyped (beginCommandBuffer o submit call) := by
  unfold beginCommandBuffer
  refine .bind closeCall_keepsTyped fun _ => ?_
  refine .bind addCallNode_keepsTyped fun marker => ?_
  refine .bind .get fun _ => .bind (modify_keepsTyped fun _ => rfl) fun _ => ?_
  refine .bind detachEvents_keepsTyped fun _ => ?_
  refine .bind .get fun _ => .ite_bind openLevel_keepsTyped .pure fun level => ?_
  refine .bind addOwned_keepsTyped fun _ => ?_
  refine .bind (.forM fun _ => addOwned_keepsTyped) fun _ => ?_
  refine .bind .get fun _ => .bind (modify_keepsTyped fun _ => rfl) fun _ => ?_
  exact .bind (.array_forM fun _ => addShared_keepsTyped) fun _ => openMarker_keepsTyped

theorem endCommandBuffer_keepsTyped : KeepsTyped (endCommandBuffer o submit call) := by
  refine .bind closeCall_keepsTyped fun _ => ?_
  refine .bind addCallNode_keepsTyped fun _ => ?_
  refine .bind attachToMarkers_keepsTyped fun _ => ?_
  exact .bind .get fun _ => .ite closeLevel_keepsTyped .pure

theorem addLabelNode_keepsTyped {kind : MarkerKind} :
    KeepsTyped (addLabelNode submit call kind) := by
  refine .bind .get fun _ => .bind (modify_keepsTyped fun _ => rfl) fun _ => ?_
  refine .bind (addNode_keepsTyped (List.mem_singleton_self _)) fun _ => ?_
  exact .bind attachToMarkers_keepsTyped fun _ => .pure

theorem beginLabel_keepsTyped : KeepsTyped (beginLabel submit call) := by
  refine .bind closeCall_keepsTyped fun _ => ?_
  exact .bind addLabelNode_keepsTyped fun _ => pushMarker_keepsTyped

theorem endLabel_keepsTyped : KeepsTyped endLabel := by
  refine .bind closeCall_keepsTyped fun _ => modify_keepsTyped fun p => ?_
  split
  · rfl
  · split <;> rfl

theorem insertLabel_keepsTyped : KeepsTyped (insertLabel submit call) :=
  .bind closeCall_keepsTyped fun _ => .discard addLabelNode_keepsTyped

theorem otherCall_keepsTyped : KeepsTyped (otherCall o submit call) := by
  refine .bind closeCall_keepsTyped fun _ => ?_
  refine .bind .get fun _ => .bind (modify_keepsTyped fun p => ?_) fun _ => ?_
  · split <;> rfl
  · refine .bind addCallNode_keepsTyped fun _ => ?_
    refine .bind attachToMarkers_keepsTyped fun _ => ?_
    refine .bind openMarker_keepsTyped fun _ => ?_
    exact .ite (modify_keepsTyped fun _ => rfl) .pure

theorem callMarker_keepsTyped : KeepsTyped (callMarker o submit call) := by
  have hforgets : ∀ _ : Unit, KeepsTyped clearBegin := fun _ => clearBegin_keepsTyped
  refine .bind (modify_keepsTyped fun _ => rfl) fun _ => ?_
  refine .ite (.bind beginCommandBuffer_keepsTyped hforgets) ?_
  refine .ite (.bind endCommandBuffer_keepsTyped hforgets) ?_
  refine .ite (.bind beginLabel_keepsTyped hforgets) ?_
  refine .ite (.bind endLabel_keepsTyped hforgets) ?_
  exact .ite_bind insertLabel_keepsTyped otherCall_keepsTyped hforgets

/-! ## Packets -/

theorem addRegField_keepsTyped {ce : Bool} {parent : Nat} {kind : NodeKind} {line : String}
    (hk : kind ∈ [.reg, .field]) : KeepsTyped (addRegField ce parent kind line) := by
  refine .bind (addNode_keepsTyped hk) fun _ => ?_
  exact .bind addOwned_keepsTyped fun _ => .pure

theorem addFields_keepsTyped {ce : Bool} {parent : Nat} {lines : List String} :
    KeepsTyped (addFields ce parent lines) :=
  .forM fun _ => .discard (addRegField_keepsTyped (by decide))

theorem addRegisters_keepsTyped {ce : Bool} {packet first : Nat} {values : List UInt32} :
    KeepsTyped (addRegisters o ce packet first values) :=
  .forM fun _ => .bind (addRegField_keepsTyped (by decide)) fun _ => addFields_keepsTyped

theorem addPacket_keepsTyped {va : Nat} {kind : PacketKind} {header : UInt32}
    {words : Array UInt32} : KeepsTyped (addPacket o va kind header words) := by
  refine .bind .get fun _ => require_keepsTyped fun aux haux => ?_
  refine .bind (addNode_keepsTyped (Aux.packet_mem_kinds haux)) fun _ => ?_
  split
  · exact .bind addFields_keepsTyped fun _ => .pure
  · exact .bind addRegisters_keepsTyped fun _ => .pure

theorem attachEvent_keepsTyped : KeepsTyped (attachEvent submit node) := by
  refine .bind .get fun _ => ?_
  refine .bind (.forM fun _ => .array_forM fun _ => addShared_keepsTyped) fun _ => ?_
  refine .bind (modify_keepsTyped fun _ => rfl) fun _ => ?_
  exact .bind attachToMarkers_keepsTyped fun _ => modify_keepsTyped fun _ => rfl

theorem addSync_keepsTyped {sync : Sync} : KeepsTyped (addSync o submit sync) :=
  .bind (addNode_keepsTyped (List.mem_singleton_self _)) fun _ => attachEvent_keepsTyped

theorem addEvent_keepsTyped {op : UInt8} : KeepsTyped (addEvent submit op) := by
  refine .bind .get fun _ => .bind (modify_keepsTyped fun _ => rfl) fun _ => ?_
  refine .bind (addNode_keepsTyped (List.mem_singleton_self _)) fun _ => ?_
  exact .bind (modify_keepsTyped fun _ => rfl) fun _ => attachEvent_keepsTyped

theorem shareWithMarkers_keepsTyped {packet : Nat} : KeepsTyped (shareWithMarkers packet) := by
  refine .bind .get fun _ => .bind .get fun _ => ?_
  refine .bind (.forM fun _ => addShared_keepsTyped) fun _ => ?_
  exact .forM fun _ => addShared_keepsTyped

theorem operation_keepsTyped {op : UInt8} {words : Array UInt32} :
    KeepsTyped (operation o submit op words) := by
  unfold operation
  split
  · exact .bind addSync_keepsTyped fun _ => .pure
  · refine .ite (.bind addEvent_keepsTyped fun _ => .pure) (.ite ?_ .pure)
    split
    · exact .bind callMarker_keepsTyped fun _ => .pure
    · exact .pure

theorem packet_keepsTyped {m : Reader} {index va : Nat} {kind : PacketKind} {header : UInt32} :
    KeepsTyped (packet o m index va kind header) := by
  have hshares (packet : Nat) (isCall : Bool) :
      KeepsTyped (if isCall then pure () else shareWithMarkers packet) :=
    .ite .pure shareWithMarkers_keepsTyped
  unfold packet
  refine .ite .pure (.bind openSubmit_keepsTyped fun submit => ?_)
  refine .bind .get fun _ => require_keepsTyped fun buffer _ => ?_
  refine .bind .ofExcept fun words => ?_
  refine .bind addPacket_keepsTyped fun packet => ?_
  refine .bind addShared_keepsTyped fun _ => .bind addShared_keepsTyped fun _ => ?_
  refine .bind (modify_keepsTyped fun _ => rfl) fun _ => ?_
  dsimp only
  split
  · exact .bind operation_keepsTyped (hshares packet)
  · exact .bind .pure (hshares packet)

/-! ## Buffers and submits -/

theorem modifyIbs_keepsTyped {f : IbStack → IbStack} :
    KeepsTyped (modify fun p => p.modifyIbs f) :=
  modify_keepsTyped fun _ => modifyIbs_nodes

theorem enterBuffer_keepsTyped {ibIndex : Nat} {ib : IndirectBuffer} {kind : IbKind} :
    KeepsTyped (enterBuffer o ibIndex ib kind) := by
  refine .bind openSubmit_keepsTyped fun _ => ?_
  refine .bind (modify_keepsTyped fun _ => rfl) fun _ => require_keepsTyped fun aux haux => ?_
  refine .bind (addNode_keepsTyped (Aux.ib_mem_kinds haux)) fun _ => ?_
  refine .bind .get fun _ => .bind addOwned_keepsTyped fun _ => ?_
  exact .bind modifyIbs_keepsTyped fun _ => clearBegin_keepsTyped

theorem leaveBuffer_keepsTyped : KeepsTyped leaveBuffer := by
  have hends (s : Scope) (depth : Nat) : KeepsTyped (do
      if depth < s.depth then modify fun p => { p with scope := none }
      clearBegin) :=
    .ite (.bind (modify_keepsTyped fun _ => rfl) fun _ => clearBegin_keepsTyped)
      clearBegin_keepsTyped
  unfold leaveBuffer
  refine .bind .get fun _ => require_keepsTyped fun _ _ => ?_
  refine .bind modifyIbs_keepsTyped fun _ => .bind closeCall_keepsTyped fun _ => ?_
  refine .bind .get fun p => .bind .get fun q => ?_
  dsimp only
  split
  · exact .ite (.bind closeLevel_keepsTyped fun _ => hends _ _) (hends _ _)
  · exact clearBegin_keepsTyped

theorem step_keepsTyped {m : Reader} {index : Nat} {x : Step} :
    KeepsTyped (step o m index x) := by
  cases x with
  | enter => exact enterBuffer_keepsTyped
  | leave => exact leaveBuffer_keepsTyped
  | packet => exact packet_keepsTyped

theorem submitStart_keepsTyped {index : Nat} {s : Submit} : KeepsTyped (submitStart index s) := by
  refine .bind .get fun _ => require_keepsTyped fun _ _ => ?_
  refine .bind (addNode_keepsTyped (List.mem_singleton_self _)) fun _ => ?_
  refine .bind addOwned_keepsTyped fun _ => .bind addOwned_keepsTyped fun _ => ?_
  exact modify_keepsTyped fun _ => rfl

theorem sortBuffers_keepsTyped : KeepsTyped (sortBuffers submit) :=
  .bind .get fun _ => .bind .get fun _ => modify_keepsTyped fun _ => rfl

theorem addPostamble_keepsTyped : KeepsTyped (addPostamble submit) := by
  refine .bind .get fun _ => .ite .pure (.bind .get fun _ => ?_)
  refine .bind (addNode_keepsTyped (by simp [Aux.kinds])) fun _ => ?_
  refine .bind (modify_keepsTyped fun _ => rfl) fun _ => ?_
  exact .bind (.array_forM fun _ => addShared_keepsTyped) fun _ => addOwned_keepsTyped

theorem addPresents_keepsTyped {index : Nat} : KeepsTyped (addPresents index) := by
  refine .bind .get fun _ => .forM fun _ => .ite ?_ .pure
  exact .bind (addNode_keepsTyped (by simp [Aux.kinds])) fun _ => addOwned_keepsTyped

theorem submitEnd_keepsTyped {index : Nat} : KeepsTyped (submitEnd index) := by
  refine .bind openSubmit_keepsTyped fun _ => .bind sortBuffers_keepsTyped fun _ => ?_
  refine .bind (modify_keepsTyped fun _ => rfl) fun _ => ?_
  refine .bind addPostamble_keepsTyped fun _ => .bind addPresents_keepsTyped fun _ => ?_
  exact .bind (modify_keepsTyped fun _ => rfl) fun _ => clearBegin_keepsTyped

end Pass

end CaptureForest
