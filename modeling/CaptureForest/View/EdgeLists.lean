import CaptureForest.Error

/-! # Edge lists

The edges of one view while it grows. Each node has a list of children that it owns and a list
of children that it shares with others. An `EdgeEdit` changes the lists and may fail; what it did
before it failed stays done. -/

namespace CaptureForest

structure Edges where
  owned : Array Nat := #[]
  shared : Array Nat := #[]
  deriving DecidableEq, Repr, Inhabited

abbrev EdgeLists := Array Edges

/-- A change of edge lists that may fail. -/
abbrev EdgeEdit := EStateM Violation EdgeLists

namespace EdgeLists

def ofNodes (n : Nat) : EdgeLists := Array.replicate n {}

/-- The children that a node owns, in order. -/
def owned (g : EdgeLists) (node : Nat) : Array Nat := (g[node]?.map (·.owned)).getD #[]

/-- The children that a node shares, in order. -/
def shared (g : EdgeLists) (node : Nat) : Array Nat := (g[node]?.map (·.shared)).getD #[]

def numOwned (g : EdgeLists) : Nat := g.foldl (fun k e => k + e.owned.size) 0

def numShared (g : EdgeLists) : Nat := g.foldl (fun k e => k + e.shared.size) 0

def pushNode (g : EdgeLists) : EdgeLists := g.push {}

/-- Puts `children` in place of the children that a node owns. -/
def setOwned (g : EdgeLists) (node : Nat) (children : Array Nat) : EdgeLists :=
  g.modify node fun e => { e with owned := children }

/-- Puts `children` in place of the children that a node shares. -/
def setShared (g : EdgeLists) (node : Nat) (children : Array Nat) : EdgeLists :=
  g.modify node fun e => { e with shared := children }

end EdgeLists

namespace EdgeEdit

/-- Adds an owned edge, last in the node's list. -/
def addOwned (node child : Nat) : EdgeEdit Unit := fun g =>
  if node < g.size ∧ child < g.size then
    .ok () (g.modify node fun e => { e with owned := e.owned.push child })
  else
    .error (.edgeOutOfRange node child g.size) g

/-- Adds a shared edge, last in the node's list. -/
def addShared (node child : Nat) : EdgeEdit Unit := fun g =>
  if node < g.size ∧ child < g.size then
    .ok () (g.modify node fun e => { e with shared := e.shared.push child })
  else
    .error (.edgeOutOfRange node child g.size) g

/-- What a removal has come to: the children that stay and those that are still looked for. -/
structure Removal where
  kept : Array Nat := #[]
  wanted : List Nat
  deriving DecidableEq, Repr

/-- Goes on to the next child of the list: it is removed if it is the next one looked for. -/
def Removal.visit (r : Removal) (child : Nat) : Removal :=
  match r.wanted with
  | [] => { r with kept := r.kept.push child }
  | w :: ws =>
    if w = child then { r with wanted := ws } else { r with kept := r.kept.push child }

def Removal.run (wanted : List Nat) (list : Array Nat) : Removal :=
  list.foldl Removal.visit { wanted }

/-- Removes children from a node's owned list. They are looked for in the given order, each behind
the one before it; those found before one that is not there are removed all the same. -/
def removeOwned (node : Nat) (children : List Nat) : EdgeEdit Unit := fun g =>
  if node < g.size then
    let r := Removal.run children (g.owned node)
    let g := g.setOwned node r.kept
    if r.wanted.isEmpty then .ok () g
    else
      .error (.removalIncomplete node (children.length - r.wanted.length) children.length) g
  else
    .error (.removalOutOfRange node) g

end EdgeEdit

/-- What may be done to edge lists while they grow. -/
inductive EdgeCall where
  /-- All is dropped, and there are `numNodes` nodes without edges. -/
  | restart (numNodes : Nat)
  | pushNode
  | addOwned (node child : Nat)
  | addShared (node child : Nat)
  | removeOwned (node : Nat) (children : List Nat)
  deriving DecidableEq, Repr

def EdgeCall.edit : EdgeCall → EdgeEdit Unit
  | restart numNodes => set (EdgeLists.ofNodes numNodes)
  | pushNode => modify EdgeLists.pushNode
  | addOwned node child => EdgeEdit.addOwned node child
  | addShared node child => EdgeEdit.addShared node child
  | removeOwned node children => EdgeEdit.removeOwned node children

end CaptureForest
