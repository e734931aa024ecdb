import CaptureForest.Text.Hex

/-! # Indirect buffers

A stretch of captured memory that holds packets. A submit lists the buffers where the work
starts; packets call further buffers, which return, or chain into them, which does not return. -/

namespace CaptureForest

/-- The way in which a buffer is entered. -/
inductive IbKind where
  /-- Listed by the submit. -/
  | normal
  /-- Called by a packet; the caller continues behind that packet afterwards. -/
  | call
  /-- Continued into by a packet; the rest of the buffer before it is left out. -/
  | chain
  deriving DecidableEq, Repr, Inhabited

structure IndirectBuffer where
  va : Nat
  /-- Number of words. -/
  size : Nat
  /-- The contents were not captured: the buffer is listed and its packets are not. -/
  skip : Bool := false
  /-- The packets run on the constant engine and not on the draw engine. -/
  constantEngine : Bool := false
  deriving DecidableEq, Repr, Inhabited

namespace IndirectBuffer

def sizeInBytes (ib : IndirectBuffer) : Nat := 4 * ib.size

/-- What a buffer is called in its description; `index` is the place of the submit's buffer. -/
def role (index : Nat) : IbKind → String
  | .normal => "IB: " ++ toString index
  | .call => "Call IB"
  | .chain => "Chain IB"

def text (ib : IndirectBuffer) (index : Nat) (kind : IbKind) : String :=
  role index kind ++ ", Address: " ++ hex0x ib.va ++ ", Size (DWORDS): " ++ toString ib.size ++
    if ib.skip then ", NOT CAPTURED" else ""

end IndirectBuffer

end CaptureForest
