import CaptureForest.Memory.Reader
import CaptureForest.Packet.Header
import CaptureForest.Packet.Builtin

/-! # Steps of a walk

A walk goes through the packets of a submit's buffers in the order of their execution and reports
a `Step` for each buffer that it enters, each packet, and each buffer that it leaves.

`IndirectBuffer.ofPacket` reads the buffer that a packet calls or chains into. -/

namespace CaptureForest

/-- What a walk reports. Each step names the place of the submit's buffer that it belongs to. -/
inductive Step where
  /-- A buffer is entered, before any of its packets. -/
  | enter (ibIndex : Nat) (ib : IndirectBuffer) (kind : IbKind)
  /-- A buffer and those chained to it have ended; `ib` is the last of them. -/
  | leave (ibIndex : Nat) (ib : IndirectBuffer)
  /-- A header word, also one that starts no packet. -/
  | packet (ibIndex va : Nat) (kind : PacketKind) (header : UInt32)
  deriving DecidableEq, Repr

/-- The address behind a packet, cut off at the largest address. -/
def nextAddress (va : Nat) (kind : PacketKind) (header : UInt32) : Nat :=
  min (va + 4 * kind.length header) maxAddress

/-- Payload words that hold the address and size of a buffer. -/
def targetWords : Nat := 3

namespace IndirectBuffer

/-- The buffer whose address and size are the words `lo`, `hi` and `size`, entered from a buffer on
the constant engine or not. It is skipped if its memory was not captured. -/
def ofWords (m : Reader) (submit : Nat) (constantEngine : Bool) (lo hi size : UInt32) :
    IndirectBuffer :=
  let va := lo.toNat + UInt32.size * hi.toNat
  let size := (size &&& Layouts.bufferSizeMask).toNat
  { va, size, skip := !m.isResident submit va (4 * size), constantEngine }

/-- The buffer that the packet at `va` leads to; none if the packet is too short to name one. -/
def ofPacket (m : Reader) (submit : Nat) (constantEngine : Bool) (va : Nat) (header : UInt32) :
    Except Error (Option IndirectBuffer) :=
  if (Header.payloadCount header).toNat < targetWords then .ok none
  else if va + 4 ≤ maxAddress then do
    let words ← m.words submit (va + 4) targetWords
    return some (ofWords m submit constantEngine words[0] words[1] words[2])
  else .error (.memoryRead submit va (4 * (targetWords + 1)))

end IndirectBuffer

end CaptureForest
