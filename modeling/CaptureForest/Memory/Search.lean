import CaptureForest.Memory.Blocks

/-! # Places found by bisection

In a sorted memory the blocks that start before an address come first. So their number can be found
by halving a range of places (`partitionPoint`), without a look at most of the blocks. The functions
here do what `BlockMemory.insert` and `BlockMemory.read?` do, with all places found that way. -/

namespace CaptureForest

/-- The number of leading blocks with `p`, looked for from `lo` up to `hi`. No block behind one
without `p` may have it. -/
def partitionPoint (p : Block → Bool) (blocks : List Block) (lo hi : Nat) : Nat :=
  if lo < hi then
    let mid := (lo + hi) / 2
    if blocks[mid]?.any p then partitionPoint p blocks (mid + 1) hi
    else partitionPoint p blocks lo mid
  else lo
termination_by hi - lo

namespace BlockMemory

def place (m : BlockMemory) (p : Block → Bool) : Nat :=
  partitionPoint p m.blocks 0 m.blocks.length

def insertBisecting (m : BlockMemory) (new : Block) : Except Violation BlockMemory :=
  let place := m.place (·.va < new.va)
  let overlapsPrevious := 0 < place && m.blocks[place - 1]?.any (new.va < ·.stop)
  let overlapsNext := m.blocks[place]?.any (·.va < new.stop)
  if overlapsPrevious || overlapsNext then .error (.blockOverlap new.va)
  else .ok { blocks := m.blocks.take place ++ new :: m.blocks.drop place }

def readBisecting? (m : BlockMemory) (va size : Nat) : Option Bytes :=
  let place := m.place (·.va ≤ va)
  if place = 0 then none
  else m.blocks[place - 1]?.bind fun b => slice? b.bytes (va - b.va) size

end BlockMemory

end CaptureForest
