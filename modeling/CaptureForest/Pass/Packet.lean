import CaptureForest.Packet.Header
import CaptureForest.Pass.State

/-! # Packet nodes

The nodes of packets, registers and fields, and the events that packets make. A run of packets
ends with an event: the event's node shares the packets since the event before it. -/

namespace CaptureForest.Pass

def addRegField (constantEngine : Bool) (parent : Nat) (kind : NodeKind) (description : String) :
    PassM Nat := do
  let node ← addNode { kind, description, aux := .regField constantEngine }
  addOwned View.withPackets parent node
  return node

def addFields (constantEngine : Bool) (parent : Nat) (lines : List String) : PassM Unit :=
  lines.forM fun line => discard (addRegField constantEngine parent .field line)

/-- Adds the registers that a packet writes, each with its fields. -/
def addRegisters (o : Options) (constantEngine : Bool) (packet first : Nat)
    (values : List UInt32) : PassM Unit :=
  values.zipIdx.forM fun (value, i) => do
    let (line, fields) := o.layouts.registerLines (first + i) value
    let reg ← addRegField constantEngine packet .reg line
    addFields constantEngine reg fields

/-- The text under which a packet is listed, whatever the layouts; one without an operation writes
registers. -/
def packetText (op : Option UInt8) (header : UInt32) : String :=
  (match op with
  | some op => Opcode.displayName op
  | none => "TYPE4 REGWRITE") ++ " " ++ hex0x header.toNat

/-- Adds the packet at `va` with everything below it; `words` is the packet, `header` its first
word. -/
def addPacket (o : Options) (va : Nat) (kind : PacketKind) (header : UInt32)
    (words : Array UInt32) : PassM Nat := do
  let constantEngine := (← get).onConstantEngine
  let op := kind.opcode? header
  let aux ← require (Aux.ofPacket? va (op.getD Aux.type4Opcode) constantEngine)
    (.packetAddressTooLarge va)
  let packet ← addNode { kind := .packet, description := packetText op header, aux }
  match op with
  | some op => addFields constantEngine packet (o.layouts.fieldLines op words)
  | none =>
    addRegisters o constantEngine packet (Header.registerOffset header).toNat words.toList.tail
  return packet

/-- Ends the run of packets with an event or a synchronisation. -/
def attachEvent (submit node : Nat) : PassM Unit := do
  let packets := (← get).packets
  View.withEvents.forM fun v => packets.forM fun packet => addShared [v] node packet
  modify fun p => { p with packets := #[] }
  attachToMarkers submit node
  modify fun p => { p with
    beginEvents := p.beginEvents.push {
      node
      allEventOwner := p.markers.headD submit
      rgpOwner := p.internalMarkers.headD submit } }

def addSync (o : Options) (submit : Nat) (sync : Sync) : PassM Unit := do
  let node ← addNode { kind := .sync, description := sync.text o.layouts, aux := .sync sync }
  attachEvent submit node

def addEvent (submit : Nat) (op : UInt8) : PassM Unit := do
  let id := (← get).numEvents
  modify fun p => { p with numEvents := id + 1 }
  let node ← addNode { kind := .event, description := Opcode.eventName op, aux := .event id }
  modify fun p => { p with events := p.events.push node }
  attachEvent submit node

end CaptureForest.Pass
