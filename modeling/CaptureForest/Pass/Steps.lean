import CaptureForest.Pass.Call
import CaptureForest.Pass.Packet
import CaptureForest.View.Forest
import CaptureForest.Walk.Step

/-! # The steps of a pass

What the begin and end of a submit and each step of a walk do to a pass. -/

namespace CaptureForest.Pass

/-! ## Submits -/

def submitStart (index : Nat) (s : Submit) : PassM Unit := do
  let engine ← require ((← get).engines.lookup s.engine) (.noEngineNode s.engine)
  let submit ← addNode {
    kind := .submit
    description := s.text index
    aux := .submit s.engine index }
  addOwned [.engine] engine submit
  addOwned [.submit, .allEvent, .rgp] rootNode submit
  modify fun p => { p with submit := some submit }

/-- The children of a submit in the order of its list of buffers. Other nodes come last. -/
def sortByIbIndex (nodes : Nodes) (children : Array Nat) : Array Nat :=
  let place (n : Nat) : Nat := (nodes.ibIndex? n).getD (1 <<< Aux.ibIndexBits - 1)
  (children.toList.mergeSort fun a b => place a ≤ place b).toArray

def sortBuffers (submit : Nat) : PassM Unit := do
  let children := (← get).edges.submit.owned submit
  let sorted := sortByIbIndex (← get).nodes children
  modify fun p => { p with edges.submit := p.edges.submit.setOwned submit sorted }

/-- Adds a node for the packets behind the last event, if there are any. -/
def addPostamble (submit : Nat) : PassM Unit := do
  let packets := (← get).packets
  unless packets.isEmpty do
    let description :=
      if ((← get).edges.allEvent.owned submit).isEmpty then "Postamble State" else "State"
    let state ← addNode { kind := .postambleState, description }
    modify fun p => { p with packets := #[] }
    packets.forM fun packet => addShared View.withEvents state packet
    addOwned View.withEvents submit state

def addPresents (index : Nat) : PassM Unit := do
  (← get).presents.zipIdx.forM fun (present, i) => do
    if present.submit = index then
      let node ← addNode { kind := .present, description := present.text i }
      addOwned View.withEvents rootNode node

/-- A submit ends; everything that was left open is closed. -/
def submitEnd (index : Nat) : PassM Unit := do
  let submit ← openSubmit
  sortBuffers submit
  modify fun p => { p with markers := [], internalMarkers := [], openCall := none, scope := none }
  addPostamble submit
  addPresents index
  modify fun p => { p with submit := none, drawIbs := [], constantIbs := [] }
  clearBegin

/-! ## Buffers -/

/-- The node below which a buffer is listed. -/
def ibOwner (o : Options) (p : Pass) (submit : Nat) (kind : IbKind) : Nat :=
  let top := p.ibs.top?.getD submit
  if o.flattenChains && kind == .chain then p.ibs.owner?.getD top else top

def enterBuffer (o : Options) (ibIndex : Nat) (ib : IndirectBuffer) (kind : IbKind) :
    PassM Unit := do
  let submit ← openSubmit
  modify fun p => { p with onConstantEngine := ib.constantEngine }
  let aux ← require (Aux.ofIb? ibIndex kind ib.size !ib.skip) (.ibIndexTooLarge ibIndex)
  let node ← addNode { kind := .ib, description := ib.text ibIndex kind, aux }
  addOwned View.withBuffers (ibOwner o (← get) submit kind) node
  modify fun p => p.modifyIbs (IbStack.push · node kind)
  clearBegin

/-- A buffer is left, and with it the buffers chained to it. -/
def leaveBuffer : PassM Unit := do
  let _ ← require (← get).ibs.head? .noBuffer
  modify fun p => p.modifyIbs List.tail
  closeCall
  let depth := (← get).ibDepth
  if let some s := (← get).scope then
    if depth ≤ s.depth then closeLevel
    if depth < s.depth then modify fun p => { p with scope := none }
  clearBegin

/-! ## Packets -/

def shareWithMarkers (packet : Nat) : PassM Unit := do
  let markers := (← get).markers
  let internalMarkers := (← get).internalMarkers
  markers.forM fun marker => addShared [.allEvent] marker packet
  internalMarkers.forM fun marker => addShared [.rgp] marker packet

/-- What the operation of a packet does; tells whether the packet is a call marker. -/
def operation (o : Options) (submit : Nat) (op : UInt8) (words : Array UInt32) : PassM Bool := do
  if let some sync := Sync.ofPacket? op words then
    addSync o submit sync
    return false
  else if Opcode.isEvent op then
    addEvent submit op
    return false
  else if op = Opcode.nop then
    match CallMarker.ofPacket? words with
    | some call =>
      callMarker o submit call
      return true
    | none => return false
  else
    return false

/-- A packet is executed. A word that starts no packet has no effect. -/
def packet (o : Options) (m : Reader) (index va : Nat) (kind : PacketKind) (header : UInt32) :
    PassM Unit := do
  if kind = .unknown then return
  let submit ← openSubmit
  let buffer ← require (← get).ibs.top? .packetOutsideBuffer
  let words ← MonadExcept.ofExcept (m.words index va (kind.length header))
  have := kind.length_pos header
  let packet ← addPacket o va kind words[0] words.toArray
  addShared View.withPackets submit packet
  addShared View.withBuffers buffer packet
  modify fun p => { p with
    packets := p.packets.push packet
    beginPackets := p.beginPackets.push packet }
  let isCall ←
    match kind.opcode? header with
    | some op => operation o submit op words.toArray
    | none => pure false
  unless isCall do shareWithMarkers packet

/-- What a step of a walk through the submit at place `index` does. -/
def step (o : Options) (m : Reader) (index : Nat) : Step → PassM Unit
  | .enter ibIndex ib kind => enterBuffer o ibIndex ib kind
  | .leave _ _ => leaveBuffer
  | .packet _ va kind header => packet o m index va kind header

end CaptureForest.Pass
