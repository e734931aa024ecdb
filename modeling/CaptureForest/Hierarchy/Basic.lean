import CaptureForest.Error
import CaptureForest.View.Basic
import CaptureForest.View.Forest

/-! # Hierarchies

The result of a build: the nodes, and a forest over them for each view. The questions about one
kind of node fail if asked of another (`Hierarchy.ofKind`). -/

namespace CaptureForest

/-- A decoded capture. -/
structure Hierarchy where
  nodes : Nodes
  forests : Views Forest
  /-- The nodes of draws, dispatches and blits, in ascending order. -/
  events : Array Nat
  metadataVersion : UInt32
  /-- A call marker was decoded. -/
  hasCallMarker : Bool
  deriving DecidableEq, Repr

/-- The place of `n` in an ascending array, by bisection of the places from `lo` to before `hi`. -/
def bisect? (a : Array Nat) (n lo hi : Nat) (h : hi ≤ a.size) : Option Nat :=
  if hlt : lo < hi then
    let mid := (lo + hi) / 2
    if a[mid] < n then bisect? a n (mid + 1) hi h
    else if n < a[mid] then bisect? a n lo mid (by omega)
    else some mid
  else none
termination_by hi - lo

namespace Hierarchy

def numNodes (h : Hierarchy) : Nat := h.nodes.size

def forest (h : Hierarchy) (v : View) : Forest := h.forests.get v

def node (h : Hierarchy) (n : Nat) : Except Error Node :=
  match h.nodes[n]? with
  | some node => .ok node
  | none => .error (.nodeOutOfRange n h.numNodes)

/-- The rank of an event node among the events, from 1 on; 0 for other nodes. -/
def eventIndex (h : Hierarchy) (n : Nat) : Nat :=
  ((bisect? h.events n 0 h.events.size (Nat.le_refl _)).map (· + 1)).getD 0

/-! ## Questions about one kind of node -/

/-- What `read` finds in the data of a node, if the node is of one of the kinds; for others the
error names the kind `expected`. -/
def ofKinds {α : Type} (h : Hierarchy) (kinds : List NodeKind) (expected : NodeKind)
    (read : Aux → Option α) (n : Nat) : Except Error α := do
  let node ← h.node n
  match if node.kind ∈ kinds then read node.aux else none with
  | some a => return a
  | none => throw (.kindMismatch n node.kind expected)

/-- What `read` finds in the data of a node of kind `kind`. -/
def ofKind {α : Type} (h : Hierarchy) (kind : NodeKind) (read : Aux → Option α) (n : Nat) :
    Except Error α :=
  h.ofKinds [kind] kind read n

def submitEngine (h : Hierarchy) : Nat → Except Error Engine :=
  h.ofKind .submit fun | .submit engine _ => some engine | _ => none

def submitIndex (h : Hierarchy) : Nat → Except Error Nat :=
  h.ofKind .submit fun | .submit _ index => some index | _ => none

def ibIndex (h : Hierarchy) : Nat → Except Error Nat :=
  h.ofKind .ib fun | .ib index _ _ _ => some index | _ => none

def ibKind (h : Hierarchy) : Nat → Except Error IbKind :=
  h.ofKind .ib fun | .ib _ kind _ _ => some kind | _ => none

def ibSize (h : Hierarchy) : Nat → Except Error Nat :=
  h.ofKind .ib fun | .ib _ _ size _ => some size | _ => none

def ibCaptured (h : Hierarchy) : Nat → Except Error Bool :=
  h.ofKind .ib fun | .ib _ _ _ captured => some captured | _ => none

def markerKind (h : Hierarchy) : Nat → Except Error MarkerKind :=
  h.ofKind .marker fun | .marker kind _ => some kind | _ => none

def markerId (h : Hierarchy) : Nat → Except Error Nat :=
  h.ofKind .marker fun | .marker _ id => some id | _ => none

def eventId (h : Hierarchy) : Nat → Except Error Nat :=
  h.ofKind .event fun | .event id => some id | _ => none

def packetAddress (h : Hierarchy) : Nat → Except Error Nat :=
  h.ofKind .packet fun | .packet address _ _ => some address | _ => none

def packetOpcode (h : Hierarchy) : Nat → Except Error UInt8 :=
  h.ofKind .packet fun | .packet _ opcode _ => some opcode | _ => none

def packetOnConstantEngine (h : Hierarchy) : Nat → Except Error Bool :=
  h.ofKind .packet fun | .packet _ _ ce => some ce | _ => none

/-- The engine of a register or a field. -/
def regFieldOnConstantEngine (h : Hierarchy) : Nat → Except Error Bool :=
  h.ofKinds [.reg, .field] .reg fun | .regField ce => some ce | _ => none

def syncKind (h : Hierarchy) : Nat → Except Error SyncKind :=
  h.ofKind .sync fun | .sync s => some s.kind | _ => none

def syncInfo (h : Hierarchy) : Nat → Except Error UInt32 :=
  h.ofKind .sync fun | .sync s => some s.info | _ => none

end Hierarchy

end CaptureForest
