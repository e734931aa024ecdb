import CaptureForest.Capture.Submit
import CaptureForest.Error
import CaptureForest.Pass.IbStack
import CaptureForest.View.Basic
import CaptureForest.View.EdgeLists
import CaptureForest.Vulkan.CallMarker
import CaptureForest.Packet.Fields

/-! # Passes

A `Pass` is a hierarchy under construction: the nodes and the edges of all views so far, and what
has to be remembered from step to step. `PassM` are the actions on it. An action that fails
leaves the pass as it was at that moment.

Nodes, events, labels and submits are numbered without a bound. A capture is taken to have fewer
than 2 ^ 32 submits, events and labels; nothing is said of counters that wrap around. -/

namespace CaptureForest

structure Options where
  layouts : Layouts := .builtin
  printer : CallPrinter := .labels
  /-- A chained buffer is listed below the buffer that its run began with, not below the buffer
  before it. -/
  flattenChains : Bool := false

/-- An event or a synchronisation with the markers that it was attached to. -/
structure PendingEvent where
  node : Nat
  allEventOwner : Nat
  rgpOwner : Nat
  deriving DecidableEq, Repr, Inhabited

/-- The reach of a call that executes other command buffers. -/
structure Scope where
  call : Nat
  /-- The number of open buffers when it was recorded; the buffers that it executes lie deeper. -/
  depth : Nat
  /-- The marker stands on the marker stacks as the owner of the executed command buffer. -/
  levelOpen : Bool := false
  deriving DecidableEq, Repr, Inhabited

structure Pass where
  nodes : Nodes := #[]
  edges : Views EdgeLists := .replicate #[]
  engines : List (Engine × Nat) := []
  events : Array Nat := #[]
  /-- The number of the next event. -/
  numEvents : Nat := 0
  /-- The number of the next label. -/
  numLabels : Nat := 0
  submit : Option Nat := none
  drawIbs : IbStack := []
  constantIbs : IbStack := []
  /-- The buffer entered last runs on the constant engine. -/
  onConstantEngine : Bool := false
  /-- The open labels and calls, the innermost first. -/
  markers : List Nat := []
  /-- The same for the view that nests by internal markers. -/
  internalMarkers : List Nat := []
  /-- The call that is open until the next one. -/
  openCall : Option Nat := none
  scope : Option Scope := none
  /-- The packets since the last event. -/
  packets : Array Nat := #[]
  /-- The packets since a buffer was entered or left or a call was recorded, in case a command
  buffer begins. -/
  beginPackets : Array Nat := #[]
  /-- The events since then. -/
  beginEvents : Array PendingEvent := #[]
  presents : List Present := []
  metadataVersion : UInt32 := 0
  hasCallMarker : Bool := false

abbrev PassM := EStateM Error Pass

namespace Pass

/-! ## Questions -/

/-- The stack of the engine that the buffer entered last runs on. -/
def ibs (p : Pass) : IbStack := if p.onConstantEngine then p.constantIbs else p.drawIbs

/-- Changes the stack of the engine that the buffer entered last runs on. -/
def modifyIbs (p : Pass) (f : IbStack → IbStack) : Pass :=
  if p.onConstantEngine then { p with constantIbs := f p.constantIbs }
  else { p with drawIbs := f p.drawIbs }

def ibDepth (p : Pass) : Nat := p.ibs.depth

/-- The walk is inside of a command buffer that a call executes. -/
def inScope (p : Pass) : Bool := p.scope.any (·.depth < p.ibDepth)

/-! ## Nodes and edges -/

/-- Applies an edit to the edges of a view. -/
def editEdges {α : Type} (v : View) (edit : EdgeEdit α) : PassM α := fun p =>
  let lists := p.edges.get v
  let p := { p with edges := p.edges.set v #[] }
  match edit lists with
  | .ok a lists => .ok a { p with edges := p.edges.set v lists }
  | .error cause lists => .error (.violation cause) { p with edges := p.edges.set v lists }

def addOwned (views : List View) (node child : Nat) : PassM Unit :=
  views.forM fun v => editEdges v (EdgeEdit.addOwned node child)

def addShared (views : List View) (node child : Nat) : PassM Unit :=
  views.forM fun v => editEdges v (EdgeEdit.addShared node child)

/-- Adds a node to all views and gives its number. -/
def addNode (node : Node) : PassM Nat := fun p =>
  .ok p.nodes.size { p with
    nodes := p.nodes.push node
    edges := p.edges.map EdgeLists.pushNode }

def openSubmit : PassM Nat := do
  match (← get).submit with
  | some submit => return submit
  | none => throw (.violation .noSubmit)

/-- The value, or the violation of a rule that left none. -/
def require {α : Type} (value : Option α) (otherwise : Violation) : PassM α :=
  match value with
  | some a => return a
  | none => throw (.violation otherwise)

/-- Makes a node a child of the innermost marker, or of the submit. -/
def attachToMarkers (submit node : Nat) : PassM Unit := do
  let allEventOwner := (← get).markers.headD submit
  let rgpOwner := (← get).internalMarkers.headD submit
  addOwned [.allEvent] allEventOwner node
  addOwned [.rgp] rgpOwner node

/-- Forgets the packets and events that a command buffer would take over. This happens where a
buffer is entered or left, behind every recorded call and at the end of a submit. -/
def clearBegin : PassM Unit :=
  modify fun p => { p with beginPackets := #[], beginEvents := #[] }

end Pass

end CaptureForest
