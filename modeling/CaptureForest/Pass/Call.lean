import CaptureForest.Pass.State

/-! # Recorded calls

What a call marker does to a pass. A call stays open until the next one or the end of its buffer,
and what happens meanwhile is listed below it; labels stay open until they are closed.

A call that executes other command buffers has a `Scope`. A command buffer that begins in the
buffers which the call executes is listed below the call, which for that time stands on the
marker stacks once more. -/

namespace CaptureForest.Pass

/-- The stack without its top, if that is `node`. -/
def popTop (node : Nat) (stack : List Nat) : List Nat :=
  if stack.head? = some node then stack.tail else stack

/-- The stack below the innermost `node`; the whole stack if `node` is not on it. -/
def popThrough (node : Nat) (stack : List Nat) : List Nat :=
  match stack.dropWhile (· != node) with
  | [] => stack
  | _ :: below => below

def closeCall : PassM Unit := do
  let some call := (← get).openCall | return
  modify fun p => { p with openCall := none }
  if (← get).markers.head? ≠ some call then throw (.violation (.openCallBuried call))
  modify fun p => { p with
    markers := p.markers.tail
    internalMarkers := popTop call p.internalMarkers }

/-- Puts a marker on both marker stacks. -/
def pushMarker (marker : Nat) : PassM Unit :=
  modify fun p => { p with
    markers := marker :: p.markers
    internalMarkers := marker :: p.internalMarkers }

def openMarker (marker : Nat) : PassM Unit := do
  pushMarker marker
  modify fun p => { p with openCall := some marker }

/-! ## Scopes -/

/-- Makes the call of the scope an owner on the marker stacks; gives its marker. -/
def openLevel : PassM (Option Nat) := do
  let some s := (← get).scope | return none
  unless s.levelOpen do
    pushMarker s.call
    modify fun p => { p with scope := some { s with levelOpen := true } }
  return some s.call

/-- Takes the call of the scope from the marker stacks, with everything left open above it. -/
def closeLevel : PassM Unit :=
  modify fun p =>
    match p.scope with
    | some s =>
      if s.levelOpen then { p with
        scope := some { s with levelOpen := false }
        markers := popThrough s.call p.markers
        internalMarkers := popThrough s.call p.internalMarkers }
      else p
    | none => p

/-! ## The beginning of a command buffer -/

/-- Pairs with equal keys as one, in the order in which the keys come first. -/
def groupByKey (pairs : List (Nat × Nat)) : List (Nat × List Nat) :=
  (pairs.map (·.1)).eraseDups.map fun key =>
    (key, (pairs.filter (·.1 == key)).map (·.2))

/-- Takes events from their owners in one view. -/
def detach (v : View) (owned : List (Nat × Nat)) : PassM Unit :=
  (groupByKey owned).forM fun (owner, children) =>
    editEdges v (EdgeEdit.removeOwned owner children)

def detachEvents (events : List PendingEvent) : PassM Unit := do
  detach .allEvent (events.map fun e => (e.allEventOwner, e.node))
  detach .rgp (events.map fun e => (e.rgpOwner, e.node))

/-- Adds the marker node of a call that is no label. -/
def addCallNode (o : Options) (call : CallMarker) (kind : MarkerKind) : PassM Nat := do
  addNode {
    kind := .marker
    description := call.text o.printer (← get).metadataVersion
    aux := .marker kind call.command.id.toNat
    metadata := call.args }

/-- A command buffer begins: what the buffer held before belongs to it. -/
def beginCommandBuffer (o : Options) (submit : Nat) (call : CallMarker) : PassM Unit := do
  closeCall
  let marker ← addCallNode o call .diveMetadata
  let events := (← get).beginEvents.toList
  modify fun p => { p with beginEvents := #[] }
  detachEvents events
  let level ← if (← get).inScope then openLevel else pure none
  addOwned View.withEvents (level.getD submit) marker
  events.forM fun e => addOwned View.withEvents marker e.node
  let packets := (← get).beginPackets
  modify fun p => { p with beginPackets := #[] }
  packets.forM fun packet => addShared View.withEvents marker packet
  openMarker marker

def endCommandBuffer (o : Options) (submit : Nat) (call : CallMarker) : PassM Unit := do
  closeCall
  let marker ← addCallNode o call .diveMetadata
  attachToMarkers submit marker
  if (← get).inScope then closeLevel

/-! ## Labels -/

/-- Adds the marker node of a label, with the next number. -/
def addLabelNode (submit : Nat) (call : CallMarker) (kind : MarkerKind) : PassM Nat := do
  let id := (← get).numLabels
  modify fun p => { p with numLabels := id + 1 }
  let marker ← addNode {
    kind := .marker
    description := call.labelText
    aux := .marker kind id
    metadata := call.args }
  attachToMarkers submit marker
  return marker

def beginLabel (submit : Nat) (call : CallMarker) : PassM Unit := do
  closeCall
  let marker ← addLabelNode submit call .beginEnd
  pushMarker marker

/-- The innermost label is closed; nothing happens if the innermost marker is no label. -/
def endLabel : PassM Unit := do
  closeCall
  modify fun p =>
    match p.markers with
    | [] => p
    | top :: below =>
      if p.nodes.markerKind? top = some .beginEnd then { p with
        markers := below
        internalMarkers := popTop top p.internalMarkers }
      else p

def insertLabel (submit : Nat) (call : CallMarker) : PassM Unit := do
  closeCall
  discard (addLabelNode submit call .insert)

/-! ## All calls -/

/-- The kind of marker for a call that is neither a label nor a command buffer's begin or end. -/
def callKind (c : Command) : MarkerKind :=
  if c = .pipelineBarrier then .barrier else .diveMetadata

/-- Any other call. It ends a scope that began at the same depth, and one that executes command
buffers begins a scope. -/
def otherCall (o : Options) (submit : Nat) (call : CallMarker) : PassM Unit := do
  closeCall
  let depth := (← get).ibDepth
  modify fun p => if p.scope.any (·.depth == depth) then { p with scope := none } else p
  let marker ← addCallNode o call (callKind call.command)
  attachToMarkers submit marker
  openMarker marker
  if call.command = .executeCommands then
    modify fun p => { p with scope := some { call := marker, depth } }

def callMarker (o : Options) (submit : Nat) (call : CallMarker) : PassM Unit := do
  modify fun p => { p with hasCallMarker := true }
  if call.command = .beginCommandBuffer then beginCommandBuffer o submit call
  else if call.command = .endCommandBuffer then endCommandBuffer o submit call
  else if call.command.opensLabel then beginLabel submit call
  else if call.command.closesLabel then endLabel
  else if call.command.insertsLabel then insertLabel submit call
  else otherCall o submit call
  clearBegin

end CaptureForest.Pass
