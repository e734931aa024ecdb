import CaptureForest.Capture.Basic
import CaptureForest.Hierarchy.Basic
import CaptureForest.Memory.Flat
import CaptureForest.Pass.Steps
import CaptureForest.View.Derived
import CaptureForest.Walk.Run

/-! # Builds

`Pass.build` makes the hierarchy of a capture, and `Pass.buildStream` that of a single command
stream. A build starts afresh whatever the pass held before. -/

namespace CaptureForest.Pass

/-- Forgets what the pass has built and what it remembers. -/
def reset (p : Pass) : Pass := { p with
  nodes := #[]
  edges := .replicate #[]
  engines := []
  events := #[]
  numEvents := 0
  numLabels := 0
  submit := none
  drawIbs := []
  constantIbs := []
  onConstantEngine := false
  markers := []
  internalMarkers := []
  openCall := none
  scope := none
  packets := #[]
  beginPackets := #[]
  beginEvents := #[]
  presents := []
  metadataVersion := 0
  hasCallMarker := false }

/-- Starts afresh with the root and a node for each of the engines. -/
def start (engines : List Engine) : PassM Unit := do
  modify reset
  let root ← addNode { kind := .root, description := "" }
  engines.forM fun engine => do
    let node ← addNode { kind := .engine, description := engine.name }
    addOwned [.engine] root node
    modify fun p => { p with engines := p.engines ++ [(engine, node)] }

/-- Walks the buffers of the submit at place `index`. -/
def walk (o : Options) (m : Reader) (index : Nat) (ibs : List IndirectBuffer) : PassM Unit :=
  Walk.run { memory := m, submit := index, emit := step o m index } ibs

/-! ## The call views -/

/-- Nodes that the view of calls leaves out. -/
def isNoCall (nodes : Nodes) (n : Nat) : Bool :=
  match nodes[n]? with
  | some node =>
    match node.kind with
    | .event | .sync | .postambleState => true
    | .marker => node.aux.markerKind? == some .barrier
    | _ => false
  | none => false

/-- What a node is to the merge of the calls without work. -/
def callClass (nodes : Nodes) (n : Nat) : CallClass :=
  match nodes.aux? n with
  | some (.marker .diveMetadata id) =>
    if id < 256 && (Command.ofId? id.toUInt8).any Command.isEvent then .eventCall else .stateCall
  | _ => .noCall

/-- The edges of all views; those of the call views are made from the others. -/
def allEdges (p : Pass) : Views EdgeLists :=
  let calls := p.edges.allEvent.without (isNoCall p.nodes)
  { p.edges with vulkanCall := calls, vulkanEvent := calls.merged (callClass p.nodes) }

/-- Ends a pass. The nodes, edges and events go over to the hierarchy. -/
def finish : PassM Hierarchy := do
  let edges := (← get).allEdges
  modify fun p => { p with edges := .replicate #[] }
  match edges.mapM Forest.ofEdgeLists? with
  | .error cause => throw (.violation cause)
  | .ok forests =>
    let p ← get
    set { p with nodes := #[], events := #[] }
    return {
      nodes := p.nodes
      forests
      events := p.events
      metadataVersion := p.metadataVersion
      hasCallMarker := p.hasCallMarker }

/-! ## Builds -/

def runSubmit (o : Options) (m : Reader) (index : Nat) (s : Submit) : PassM Unit := do
  submitStart index s
  if s.isWalked then walk o m index s.ibs
  submitEnd index

def build (o : Options) (c : Capture) : PassM Hierarchy := do
  start Engine.all
  modify fun p => { p with presents := c.presents, metadataVersion := c.metadataVersion }
  c.submits.zipIdx.forM fun (s, index) => runSubmit o c.memory index s
  finish

/-- The hierarchy of a command stream for an engine, taken as one submit of one buffer at address
zero. No other engine gets a node. -/
def buildStream (o : Options) (engine queue : Engine) (words : Array UInt32) :
    PassM Hierarchy := do
  unless engine.isDecodable do throw (.unsupportedSubmit engine)
  start [engine]
  let s : Submit := { engine, queue, ibs := [{ va := 0, size := words.size }] }
  runSubmit o (.flat (Words.toBytes words)) 0 s
  finish

end CaptureForest.Pass

namespace CaptureForest.Hierarchy

def ofCapture (o : Options) (c : Capture) : Except Error Hierarchy :=
  match (Pass.build o c).run {} with
  | .ok h _ => .ok h
  | .error e _ => .error e

def ofStream (o : Options) (engine queue : Engine) (words : Array UInt32) :
    Except Error Hierarchy :=
  match (Pass.buildStream o engine queue words).run {} with
  | .ok h _ => .ok h
  | .error e _ => .error e

end CaptureForest.Hierarchy
