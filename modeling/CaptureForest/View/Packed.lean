import CaptureForest.View.Forest

/-! # Packed forests

The form in which a finished view is stored. The lists of all nodes stand in one array, one behind
the other, and each node has the span of its own (`PackedLists`). Owners and ranks stand in two
arrays beside them. A `PackedEdit` does to a packed forest what a `ForestEdit` does to a forest; a
`ForestCall` is such an edit, or a new start. -/

namespace CaptureForest

/-- A stretch of an array. -/
structure Span where
  start : Nat := 0
  count : Nat := 0
  deriving DecidableEq, Repr, Inhabited

/-- A list for each node, all of them in one array. -/
structure PackedLists where
  spans : Array Span
  data : Array Nat := #[]
  deriving DecidableEq, Repr, Inhabited

namespace PackedLists

def ofNodes (n : Nat) : PackedLists := { spans := Array.replicate n {} }

/-- The length of a node's list. -/
def count (l : PackedLists) (node : Nat) : Nat := (l.spans[node]?.map (·.count)).getD 0

def list (l : PackedLists) (node : Nat) : Array Nat :=
  match l.spans[node]? with
  | some span => l.data.extract span.start (span.start + span.count)
  | none => #[]

/-- Puts a list behind the others and makes it that of a node. -/
def put (l : PackedLists) (node : Nat) (list : Array Nat) : PackedLists where
  spans := l.spans.setIfInBounds node { start := l.data.size, count := list.size }
  data := l.data ++ list

end PackedLists

structure PackedForest where
  ownedLists : PackedLists
  sharedLists : PackedLists
  /-- The owner of each node. -/
  parents : Array (Option Nat)
  /-- The rank of each node among the owner's children. -/
  ranks : Array (Option Nat)
  deriving DecidableEq, Repr, Inhabited

/-- A change of a packed forest that may fail. -/
abbrev PackedEdit := EStateM Violation PackedForest

namespace PackedForest

def ofNodes (n : Nat) : PackedForest where
  ownedLists := .ofNodes n
  sharedLists := .ofNodes n
  parents := Array.replicate n none
  ranks := Array.replicate n none

/-! ## Questions -/

def size (f : PackedForest) : Nat := f.parents.size

def children (f : PackedForest) (node : Nat) : Array Nat := f.ownedLists.list node

def shared (f : PackedForest) (node : Nat) : Array Nat := f.sharedLists.list node

def numChildren (f : PackedForest) (node : Nat) : Nat := f.ownedLists.count node

def numSharedChildren (f : PackedForest) (node : Nat) : Nat := f.sharedLists.count node

def parent? (f : PackedForest) (node : Nat) : Option Nat := f.parents[node]?.join

def rank? (f : PackedForest) (node : Nat) : Option Nat := f.ranks[node]?.join

def child? (f : PackedForest) (node rank : Nat) : Option Nat := (f.children node)[rank]?

def sharedChild? (f : PackedForest) (node rank : Nat) : Option Nat := (f.shared node)[rank]?

def numOwned (f : PackedForest) : Nat := f.ownedLists.data.size

def numShared (f : PackedForest) : Nat := f.sharedLists.data.size

/-- Notes the owner of a node, and the rank there. -/
def setOwner (f : PackedForest) (child : Nat) (o : Owner) : PackedForest :=
  { f with
    parents := f.parents.setIfInBounds child (some o.node)
    ranks := f.ranks.setIfInBounds child (some o.rank) }

end PackedForest

namespace PackedEdit

def checkNode (node : Nat) : PackedEdit Unit := fun f =>
  if node < f.size then .ok () f else .error (.nodeOutOfRange node f.size) f

/-- Makes `node` the owner of `child`, which has to be there and to have no owner. -/
def claim (node child rank : Nat) : PackedEdit Unit := fun f =>
  if child < f.size then
    match f.parent? child with
    | some owner => .error (.alreadyOwned child owner node) f
    | none => .ok () (f.setOwner child { node, rank })
  else
    .error (.nodeOutOfRange child f.size) f

def addChildren (node : Nat) (children : Array Nat) : PackedEdit Unit := do
  checkNode node
  unless (← get).numChildren node = 0 do throw (.alreadyHasChildren node)
  children.toList.zipIdx.forM fun (child, rank) => claim node child rank
  modify fun f => { f with ownedLists := f.ownedLists.put node children }

def addShared (node : Nat) (children : Array Nat) : PackedEdit Unit := do
  checkNode node
  let f ← get
  unless f.numSharedChildren node = 0 do throw (.alreadyHasShared node)
  if let some bad := children.find? (f.size ≤ ·) then throw (.sharedOutOfRange bad)
  modify fun f => { f with sharedLists := f.sharedLists.put node children }

def addEdges (node : Nat) (e : Edges) : PackedEdit Unit := do
  unless e.owned.isEmpty do addChildren node e.owned
  unless e.shared.isEmpty do addShared node e.shared

end PackedEdit

def PackedForest.ofEdgeLists? (g : EdgeLists) : Except Violation PackedForest :=
  match (g.toList.zipIdx.forM fun (e, node) => PackedEdit.addEdges node e).run
      (PackedForest.ofNodes g.size) with
  | .ok _ f => .ok f
  | .error v _ => .error v

/-- What may be done to a forest while it is made. -/
inductive ForestCall where
  /-- All is dropped, and there are `numNodes` nodes without edges. -/
  | restart (numNodes : Nat)
  | addChildren (node : Nat) (children : Array Nat)
  | addShared (node : Nat) (children : Array Nat)
  deriving DecidableEq, Repr

namespace ForestCall

def onForest : ForestCall → ForestEdit Unit
  | restart numNodes => set (Forest.ofNodes numNodes)
  | addChildren node children => ForestEdit.addChildren node children
  | addShared node children => ForestEdit.addShared node children

def onPacked : ForestCall → PackedEdit Unit
  | restart numNodes => set (PackedForest.ofNodes numNodes)
  | addChildren node children => PackedEdit.addChildren node children
  | addShared node children => PackedEdit.addShared node children

end ForestCall

end CaptureForest
