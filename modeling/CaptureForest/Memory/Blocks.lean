import CaptureForest.Memory.Flat

/-! # Blocks of memory

Memory that was captured in pieces. A `BlockMemory` holds its blocks in ascending order of their
addresses; `BlockMemory.insert` refuses one that overlaps its neighbours, and a read has to lie
within a single block. -/

namespace CaptureForest

structure Block where
  va : Nat
  bytes : Bytes
  deriving DecidableEq, Repr, Inhabited

/-- The address behind a block, cut off at the largest address. -/
def Block.stop (b : Block) : Nat := min (b.va + b.bytes.size) maxAddress

structure BlockMemory where
  blocks : List Block := []
  deriving DecidableEq, Repr, Inhabited

namespace BlockMemory

def below (m : BlockMemory) (va : Nat) : List Block := m.blocks.takeWhile (·.va < va)

def above (m : BlockMemory) (va : Nat) : List Block := m.blocks.dropWhile (·.va < va)

/-- The new block runs into a neighbour: the one before it ends behind its start, or it ends
behind the start of the one after it. -/
def overlaps (m : BlockMemory) (new : Block) : Bool :=
  (m.below new.va).getLast?.any (new.va < ·.stop) || (m.above new.va).head?.any (·.va < new.stop)

def insert (m : BlockMemory) (new : Block) : Except Violation BlockMemory :=
  if m.overlaps new then .error (.blockOverlap new.va)
  else .ok { blocks := m.below new.va ++ new :: m.above new.va }

/-- The last block that starts at `va` or before it. -/
def blockAt? (m : BlockMemory) (va : Nat) : Option Block :=
  (m.blocks.takeWhile (·.va ≤ va)).getLast?

/-- A range within the block that its first address falls to. -/
def read? (m : BlockMemory) (va size : Nat) : Option Bytes :=
  (m.blockAt? va).bind fun b => slice? b.bytes (va - b.va) size

theorem size_read? {m : BlockMemory} {va size : Nat} {bytes : Bytes}
    (h : m.read? va size = some bytes) : bytes.size = size := by
  obtain ⟨b, -, hb⟩ := Option.bind_eq_some_iff.mp h
  exact size_slice? hb

end BlockMemory

namespace Reader

def blocks (m : BlockMemory) : Reader where
  read? _ va size := m.read? va size
  size_read? h := BlockMemory.size_read? h

end Reader

end CaptureForest
