import CaptureForest.Packet.Opcode

/-! # Layouts of packets and registers

A `Layouts` value says how the payload of a packet and the value of a register are labelled. A
field is the part of a word under a mask, shifted down; a packet field also names the payload
word that it lies in and, if its values have names, the enumeration that holds them.

`Layouts.ofLists` makes one from lists of entries, of which the first that matches counts. -/

namespace CaptureForest

/-- A part of a word: the bits under `mask`, shifted down by `shift`. -/
structure BitField where
  name : String
  mask : UInt32
  shift : UInt32
  deriving DecidableEq, Repr, Inhabited

def BitField.value (f : BitField) (w : UInt32) : UInt32 := (w &&& f.mask) >>> f.shift

/-- A field of a packet's payload. -/
structure PacketField extends BitField where
  /-- The word of the packet that the field lies in; 1 is the first word after the header. -/
  word : Nat
  /-- The enumeration that names the field's values. -/
  enumeration : Option Nat := none
  deriving DecidableEq, Repr, Inhabited

/-- The fields of the packets of one operation, in the order in which they are listed. -/
structure PacketLayout where
  name : String
  fields : List PacketField
  deriving DecidableEq, Repr, Inhabited

structure RegisterLayout where
  name : String
  fields : List BitField
  deriving DecidableEq, Repr, Inhabited

/-- Labels for the payload of packets, for registers and for enumerated values. The operation of a
packet is always listed under its `Opcode.displayName`; layouts do not rename it. -/
structure Layouts where
  packet? : UInt8 → Option PacketLayout
  register? : Nat → Option RegisterLayout
  enumText? : Nat → UInt32 → Option String

namespace Layouts

/-- The enumeration of the event types that an event-write packet names. -/
def eventTypes : Nat := 0

/-- The enumeration of primitive types. -/
def primitiveTypes : Nat := 1

/-- The enumeration of comparisons that a wait packet makes. -/
def waitFunctions : Nat := 2

/-- The name of an event type, `Unknown` for one without a name. -/
def eventTypeText (l : Layouts) (event : UInt32) : String :=
  (l.enumText? eventTypes event).getD "Unknown"

/-- Layouts given by lists of entries; the first entry that matches counts. -/
def ofLists (packets : List (UInt8 × PacketLayout)) (registers : List (Nat × RegisterLayout))
    (enumerations : List ((Nat × UInt32) × String)) : Layouts where
  packet? op := packets.lookup op
  register? reg := registers.lookup reg
  enumText? enumeration value := enumerations.lookup (enumeration, value)

end Layouts

end CaptureForest
