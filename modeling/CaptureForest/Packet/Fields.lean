import CaptureForest.Packet.Layout
import CaptureForest.Text.Hex

/-! # Decoded fields

The lines that stand below a packet or a register. A packet is the array of its words, the
header first. `Layouts.fieldLines` lists the payload of an opcode packet:

* the fields of its layout, up to the first that lies in a word which the packet lacks;
* then each word after the last listed field as a raw line.

A packet without a layout has raw lines alone, and a layout without fields lists nothing. -/

namespace CaptureForest

def labelled (name : String) (value : UInt32) : String := name ++ ": " ++ hex0x value.toNat

/-- The text of a field with value `value`: the value's name if it has one. -/
def PacketField.text (l : Layouts) (f : PacketField) (value : UInt32) : String :=
  match f.enumeration.bind fun e => l.enumText? e value with
  | some valueName => f.name ++ ": " ++ valueName
  | none => labelled f.name value

/-- The text of a payload word that no field covers. -/
def rawText (word : Nat) (value : UInt32) : String :=
  "(DWORD " ++ toString word ++ "): " ++ hex0x value.toNat

/-- The fields up to the first that lies outside of the packet, each with the word it lies in. -/
def PacketField.present (words : Array UInt32) : List PacketField → List (PacketField × UInt32)
  | [] => []
  | f :: fs =>
    match words[f.word]? with
    | some w => (f, w) :: present words fs
    | none => []

/-- The raw lines of the words from `first` on. -/
def rawLines (words : Array UInt32) (first : Nat) : List String :=
  ((words.toList.zipIdx).drop first).map fun (w, i) => rawText i w

namespace Layouts

/-- The lines below an `op` packet. -/
def fieldLines (l : Layouts) (op : UInt8) (words : Array UInt32) : List String :=
  match l.packet? op with
  | none => rawLines words 1
  | some { fields := [], .. } => []
  | some { fields, .. } =>
    let decoded := PacketField.present words fields
    let last := (decoded.getLast?.map fun (f, _) => f.word).getD 0
    decoded.map (fun (f, w) => f.text l (f.value w)) ++ rawLines words (last + 1)

/-- The line of a register write and the lines of the register's fields below it. -/
def registerLines (l : Layouts) (reg : Nat) (value : UInt32) : String × List String :=
  match l.register? reg with
  | some layout =>
    (labelled layout.name value, layout.fields.map fun f => labelled f.name (f.value value))
  | none => (labelled "Unknown" value, [])

end Layouts

end CaptureForest
