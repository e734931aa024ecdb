import CaptureForest.Text.Bytes
import CaptureForest.Vulkan.Command

/-! # Call markers

A capture layer puts a no-operation packet in front of the packets of each recorded call. Its
first payload word is `| command id (8) | signature (24) |`, and the words behind that are the
bytes of the call's arguments. `CallMarker.ofPacket?` reads such a packet.

The argument of a debug label is a text that ends at the first zero byte (`labelText?`). -/

namespace CaptureForest

structure CallMarker where
  command : Command
  args : Bytes
  deriving DecidableEq, Repr

namespace CallMarker

/-- The low 24 bits of the word that tells a call marker from other payloads. -/
def signature : UInt32 := 0x00d17e

def word (c : Command) : UInt32 := signature ||| c.id.toUInt32 <<< 24

/-- The bits of a payload word that hold the signature in a call marker. -/
def signatureOf (w : UInt32) : UInt32 := w &&& 0x00ffffff

/-- The bits of a payload word that hold the command's id in a call marker. -/
def commandId (w : UInt32) : UInt8 := (w >>> 24).toUInt8

def hasSignature (w : UInt32) : Bool := signatureOf w == signature

/-- The command that a payload word marks a call of. -/
def command? (w : UInt32) : Option Command :=
  if hasSignature w then Command.ofId? (commandId w) else none

/-- The call that a packet marks; `words` is the whole packet. A packet without payload, without
the signature or with an unknown command id marks none. -/
def ofPacket? (words : Array UInt32) : Option CallMarker := do
  let first ← words[1]?
  let command ← command? first
  return { command, args := Words.toBytes (words.extract 2) }

end CallMarker

/-! ## Labels and argument texts -/

/-- The text of a debug label: the bytes before the first zero byte, if they are UTF-8. -/
def labelText? (args : Bytes) : Option String := text? (args.takeWhile (· != 0))

/-- The text under which a debug label is listed: its own, or the command's name if the label is
empty or unreadable. -/
def CallMarker.labelText (call : CallMarker) : String :=
  match labelText? call.args with
  | some label => if label.isEmpty then call.command.name else label
  | none => call.command.name

/-- A way to print the arguments of a call: the text that follows the command's name, given the
command, the argument bytes and the version of the argument format. -/
abbrev CallPrinter := Command → Bytes → UInt32 → String

/-- Prints the texts of debug labels and nothing else. -/
def CallPrinter.labels : CallPrinter := fun c args _ =>
  if c.opensLabel || c.insertsLabel then
    match labelText? args with
    | some label => "(\"" ++ label ++ "\")"
    | none => ""
  else
    ""

def CallMarker.text (call : CallMarker) (printer : CallPrinter) (version : UInt32) : String :=
  call.command.name ++ printer call.command call.args version

end CaptureForest
