import CaptureForest.Capture.Submit
import CaptureForest.Packet.Sync
import CaptureForest.Text.Bytes

/-! # Nodes

Everything that a hierarchy lists is a node: a description, the data of its kind and a byte
string. Nodes are numbered in the order in which they were added, the same for all views.

`Aux` is the data of a node. Two of its forms are checked when they are made: `Aux.ofIb?` wants
a buffer's place to fit in eight bits and `Aux.ofPacket?` a packet's address in 48 bits. -/

namespace CaptureForest

inductive NodeKind where
  | root
  | engine
  | submit
  | ib
  | packet
  | reg
  | field
  /-- A draw, dispatch or blit. -/
  | event
  | marker
  | sync
  | postambleState
  | present
  deriving DecidableEq, Repr, Inhabited

namespace NodeKind

def all : List NodeKind :=
  [.root, .engine, .submit, .ib, .packet, .reg, .field, .event, .marker, .sync, .postambleState,
    .present]

/-- The lowercase word for a kind of node. -/
def key : NodeKind → String
  | .root => "root"
  | .engine => "engine"
  | .submit => "submit"
  | .ib => "ib"
  | .packet => "packet"
  | .reg => "reg"
  | .field => "field"
  | .event => "event"
  | .marker => "marker"
  | .sync => "sync"
  | .postambleState => "postamble_state"
  | .present => "present"

/-- The name of a kind of node in error messages. -/
def name : NodeKind → String
  | .root => "Root"
  | .engine => "Engine"
  | .submit => "Submit"
  | .ib => "Ib"
  | .packet => "Packet"
  | .reg => "Reg"
  | .field => "Field"
  | .event => "DrawDispatchDma"
  | .marker => "Marker"
  | .sync => "Sync"
  | .postambleState => "PostambleState"
  | .present => "Present"

end NodeKind

inductive MarkerKind where
  /-- A debug label with a begin and an end. -/
  | beginEnd
  /-- A debug label at a single point. -/
  | insert
  | barrier
  /-- Any other recorded call. -/
  | diveMetadata
  deriving DecidableEq, Repr, Inhabited

/-- The data that a node carries beside its description. -/
inductive Aux where
  | none
  | submit (engine : Engine) (index : Nat)
  | ib (index : Nat) (kind : IbKind) (size : Nat) (captured : Bool)
  /-- The operation of a register write is `Aux.type4Opcode`. -/
  | packet (address : Nat) (opcode : UInt8) (constantEngine : Bool)
  | regField (constantEngine : Bool)
  | event (id : Nat)
  | marker (kind : MarkerKind) (id : Nat)
  | sync (sync : Sync)
  deriving DecidableEq, Repr, Inhabited

namespace Aux

/-- Stands in place of the operation of a register write. -/
def type4Opcode : UInt8 := 0xff

/-- The bits for a buffer's place in its submit. -/
def ibIndexBits : Nat := 8

/-- The bits for a packet's address. -/
def packetAddressBits : Nat := 48

/-- The data of a buffer, if its place fits. -/
def ofIb? (index : Nat) (kind : IbKind) (size : Nat) (captured : Bool) : Option Aux :=
  if index < 1 <<< ibIndexBits then some (.ib index kind size captured) else Option.none

/-- The data of a packet, if its address fits. -/
def ofPacket? (address : Nat) (opcode : UInt8) (constantEngine : Bool) : Option Aux :=
  if address < 1 <<< packetAddressBits then some (.packet address opcode constantEngine)
  else Option.none

def ibIndex? : Aux → Option Nat
  | .ib index _ _ _ => some index
  | _ => Option.none

def ibKind? : Aux → Option IbKind
  | .ib _ kind _ _ => some kind
  | _ => Option.none

def markerKind? : Aux → Option MarkerKind
  | .marker kind _ => some kind
  | _ => Option.none

end Aux

structure Node where
  kind : NodeKind
  description : String
  aux : Aux := .none
  /-- The argument bytes of a recorded call; empty for other nodes. -/
  metadata : Bytes := #[]
  deriving DecidableEq, Repr, Inhabited

/-- The nodes of a hierarchy; a node's number is its place. -/
abbrev Nodes := Array Node

namespace Nodes

def aux? (nodes : Nodes) (n : Nat) : Option Aux := nodes[n]?.map (·.aux)

def ibIndex? (nodes : Nodes) (n : Nat) : Option Nat := (nodes.aux? n).bind Aux.ibIndex?

def ibKind? (nodes : Nodes) (n : Nat) : Option IbKind := (nodes.aux? n).bind Aux.ibKind?

def markerKind? (nodes : Nodes) (n : Nat) : Option MarkerKind :=
  (nodes.aux? n).bind Aux.markerKind?

end Nodes

end CaptureForest
