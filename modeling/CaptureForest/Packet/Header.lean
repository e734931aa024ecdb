/-! # Packet headers

A command stream is a sequence of packets, each a header word followed by payload words. Two
kinds of header exist:

* register writes, `| 0100 | p | offset (19) | p | count (7) |`: `count` values for consecutive
  registers from `offset` on;
* opcode packets, `| 0111 | p | opcode (7) | p | 0 | count (14) |`: `count` payload words for the
  operation `opcode`.

Each `p` is the odd parity of the field to its right. `PacketKind.ofHeader` takes a word with
another top nibble or a wrong parity bit for no packet at all, and `PacketKind.length` is the
number of words that a packet takes up, its header included. -/

namespace CaptureForest

/-- What a header word starts. -/
inductive PacketKind where
  /-- Writes to consecutive registers. -/
  | type4
  /-- An operation with payload words. -/
  | type7
  | unknown
  deriving DecidableEq, Repr, Inhabited

/-- The parity bit that gives `v` and the bit together an odd number of ones. -/
def oddParity (v : UInt32) : UInt32 :=
  let v := v ^^^ (v >>> 16)
  let v := v ^^^ (v >>> 8)
  let v := v ^^^ (v >>> 4)
  let v := v ^^^ (v >>> 2)
  let v := v ^^^ (v >>> 1)
  (v ^^^ 1) &&& 1

namespace Header

/-- Top nibble of a register-write header. -/
def type4Tag : UInt32 := 0x4

/-- Top nibble of an opcode header. -/
def type7Tag : UInt32 := 0x7

/-- The top nibble, which tells the kinds of header apart. -/
def tag (h : UInt32) : UInt32 := h >>> 28

/-! ## Register writes -/

/-- Number of registers that a register write sets. -/
def registerCount (h : UInt32) : UInt32 := h &&& 0x7f

/-- First register that a register write sets. -/
def registerOffset (h : UInt32) : UInt32 := (h >>> 8) &&& 0x7ffff

/-- Both parity bits of a register write are right. -/
def registerParityOk (h : UInt32) : Bool :=
  (h >>> 7) &&& 1 == oddParity (registerCount h) &&
    (h >>> 27) &&& 1 == oddParity (registerOffset h)

/-- The header of a write of `count` registers from `offset` on; bits that do not fit are
dropped. -/
def ofRegisters (offset count : UInt32) : UInt32 :=
  let offset := offset &&& 0x7ffff
  let count := count &&& 0x7f
  type4Tag <<< 28 ||| count ||| oddParity count <<< 7 ||| offset <<< 8 ||| oddParity offset <<< 27

/-! ## Opcode packets -/

/-- Number of payload words of an opcode packet. -/
def payloadCount (h : UInt32) : UInt32 := h &&& 0x3fff

/-- Operation of an opcode packet. -/
def opcode (h : UInt32) : UInt8 := ((h >>> 16) &&& 0x7f).toUInt8

/-- Both parity bits of an opcode packet are right. -/
def opcodeParityOk (h : UInt32) : Bool :=
  (h >>> 15) &&& 1 == oddParity (payloadCount h) &&
    (h >>> 23) &&& 1 == oddParity (opcode h).toUInt32

/-- The header of an `op` packet with `count` payload words; bits that do not fit are dropped. -/
def ofOpcode (op : UInt8) (count : UInt32) : UInt32 :=
  let op := (op &&& 0x7f).toUInt32
  let count := count &&& 0x3fff
  type7Tag <<< 28 ||| count ||| oddParity count <<< 15 ||| op <<< 16 ||| oddParity op <<< 23

end Header

/-- The kind of packet that a header word starts; a wrong parity bit makes it unknown. -/
def PacketKind.ofHeader (h : UInt32) : PacketKind :=
  if Header.tag h = Header.type4Tag && Header.registerParityOk h then .type4
  else if Header.tag h = Header.type7Tag && Header.opcodeParityOk h then .type7
  else .unknown

/-- The operation of a packet of the given kind with header `h`; a register write has none. -/
def PacketKind.opcode? (kind : PacketKind) (h : UInt32) : Option UInt8 :=
  match kind with
  | .type7 => some (Header.opcode h)
  | .type4 | .unknown => none

/-- Words of a packet of the given kind with header `h`, the header included. -/
def PacketKind.length (kind : PacketKind) (h : UInt32) : Nat :=
  match kind with
  | .type4 => 1 + (Header.registerCount h).toNat
  | .type7 => 1 + (Header.payloadCount h).toNat
  | .unknown => 1

theorem PacketKind.length_pos (kind : PacketKind) (h : UInt32) : 0 < kind.length h :=
  match kind with
  | .type4 | .type7 => Nat.lt_add_right _ Nat.one_pos
  | .unknown => Nat.one_pos

end CaptureForest
