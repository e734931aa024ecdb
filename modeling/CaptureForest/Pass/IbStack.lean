import CaptureForest.Capture.IndirectBuffer

/-! # Stacks of buffers

The buffers that are being walked on one engine, as the nodes that stand for them. A buffer that
was listed or called begins a run, and the buffers chained to it follow in the same run; a run
ends as a whole. -/

namespace CaptureForest

/-- A buffer and the buffers chained to it. -/
structure IbRun where
  /-- The node of the buffer that the run begins with. -/
  start : Nat
  /-- The run begins with a chained buffer, as no buffer was open when it was entered. -/
  startsChained : Bool := false
  /-- The nodes of the chained buffers, the latest last. -/
  chained : Array Nat := #[]
  deriving DecidableEq, Repr, Inhabited

namespace IbRun

def top (r : IbRun) : Nat := r.chained.back?.getD r.start

def size (r : IbRun) : Nat := r.chained.size + 1

/-- The buffers of a run, the latest first. -/
def toList (r : IbRun) : List Nat := r.chained.toList.reverse ++ [r.start]

end IbRun

/-- The open runs, the innermost first. -/
abbrev IbStack := List IbRun

namespace IbStack

/-- The buffers on the stack, the innermost first. -/
def nodes (s : IbStack) : List Nat := s.flatMap IbRun.toList

def depth (s : IbStack) : Nat := s.foldr (fun r n => r.size + n) 0

def top? (s : IbStack) : Option Nat := s.head?.map IbRun.top

/-- The innermost buffer that was listed or called. -/
def owner? (s : IbStack) : Option Nat :=
  s.head?.bind fun r => if r.startsChained then none else some r.start

def push (s : IbStack) (node : Nat) : IbKind → IbStack
  | .normal | .call => { start := node } :: s
  | .chain =>
    match s with
    | [] => [{ start := node, startsChained := true }]
    | r :: rs => { r with chained := r.chained.push node } :: rs

end IbStack

end CaptureForest
