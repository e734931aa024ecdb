import CaptureForest.Node.Basic

/-! # Errors

A build either gives a whole hierarchy or fails with an `Error`. `Violation` lists the rules that
a capture, a list of edges or a sequence of steps can break, one form for each.
`Violation.message` and `Error.message` are their texts. -/

namespace CaptureForest

/-- A broken rule. -/
inductive Violation where
  /-- A block of memory covers an address that another one covers. -/
  | blockOverlap (va : Nat)
  | ibIndexTooLarge (index : Nat)
  | packetAddressTooLarge (address : Nat)
  /-- A buffer was called from within too many others. -/
  | nestingTooDeep (va : Nat)
  /-- A run of chained buffers did not end. -/
  | chainTooLong (va : Nat)
  | edgeOutOfRange (node child numNodes : Nat)
  | removalOutOfRange (node : Nat)
  /-- Children to be removed from a node were not found among its children in that order. -/
  | removalIncomplete (node removed expected : Nat)
  | nodeOutOfRange (node numNodes : Nat)
  | alreadyHasChildren (node : Nat)
  | alreadyOwned (child owner node : Nat)
  | alreadyHasShared (node : Nat)
  | sharedOutOfRange (child : Nat)
  | noEngineNode (engine : Engine)
  | noSubmit
  | packetOutsideBuffer
  /-- A buffer ended that had not been entered. -/
  | noBuffer
  /-- The open call is not the innermost marker. -/
  | openCallBuried (call : Nat)
  /-- The receiver of a walk stopped it. -/
  | stopped (text : String)
  deriving DecidableEq, Repr

/-- Deepest nesting of called buffers. -/
def maxDepth : Nat := 8

/-- Largest number of buffers in a run that are chained to its first. -/
def maxChain : Nat := 65536

def Violation.message : Violation → String
  | .blockOverlap va => "memory block at " ++ hex0x va ++ " overlaps an existing block"
  | .ibIndexTooLarge index =>
    "IB index " ++ toString index ++ " does not fit in " ++ toString Aux.ibIndexBits ++ " bits"
  | .packetAddressTooLarge address =>
    "packet address " ++ hex0x address ++ " wider than " ++ toString Aux.packetAddressBits ++
      " bits"
  | .nestingTooDeep va =>
    "IB nesting deeper than " ++ toString maxDepth ++ " at " ++ hex0x va
  | .chainTooLong va =>
    "chain of more than " ++ toString maxChain ++ " IBs at " ++ hex0x va
  | .edgeOutOfRange node child numNodes =>
    "edge " ++ toString node ++ " -> " ++ toString child ++ " out of range (" ++
      toString numNodes ++ " nodes)"
  | .removalOutOfRange node => "node " ++ toString node ++ " out of range"
  | .removalIncomplete node removed expected =>
    "node " ++ toString node ++ ": removed " ++ toString removed ++ " children, expected " ++
      toString expected
  | .nodeOutOfRange node numNodes =>
    "node " ++ toString node ++ " out of range (" ++ toString numNodes ++ " nodes)"
  | .alreadyHasChildren node => "node " ++ toString node ++ " already has owned children"
  | .alreadyOwned child owner node =>
    "node " ++ toString child ++ " already owned by " ++ toString owner ++ ", cannot add to " ++
      toString node
  | .alreadyHasShared node => "node " ++ toString node ++ " already has shared children"
  | .sharedOutOfRange child => "shared child " ++ toString child ++ " out of range"
  | .noEngineNode engine => "no " ++ engine.name ++ " engine node"
  | .noSubmit => "no submit in progress"
  | .packetOutsideBuffer => "packet outside of any IB"
  | .noBuffer => "IB end with an empty IB stack"
  | .openCallBuried call =>
    "open call marker " ++ toString call ++ " is not on top of the marker stack"
  | .stopped text => text

/-- What can go wrong in a build or a query. -/
inductive Error where
  | memoryRead (submit va size : Nat)
  | violation (cause : Violation)
  /-- A question about one kind of node was asked of another. -/
  | kindMismatch (node : Nat) (found expected : NodeKind)
  | nodeOutOfRange (node numNodes : Nat)
  /-- A single command stream is for an engine that runs no packets. -/
  | unsupportedSubmit (engine : Engine)
  deriving DecidableEq, Repr

def Error.message : Error → String
  | .memoryRead submit va size =>
    "memory read failed: submit " ++ toString submit ++ ", va " ++ hex0x va ++ ", " ++
      toString size ++ " bytes"
  | .violation cause => "invariant violation: " ++ cause.message
  | .kindMismatch node found expected =>
    "node " ++ toString node ++ " is " ++ found.name ++ ", expected " ++ expected.name
  | .nodeOutOfRange node numNodes =>
    "node " ++ toString node ++ " out of range (" ++ toString numNodes ++ " nodes)"
  | .unsupportedSubmit engine => "submit on " ++ engine.name ++ " engine cannot be decoded"

end CaptureForest
