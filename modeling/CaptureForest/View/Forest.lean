import CaptureForest.View.EdgeLists

/-! # Forests

The finished form of a view. Beside its children each node knows its owner and its rank among
the owner's children, so the forest can be walked without a stack: `Forest.next?` is the node
behind a given one in preorder, and `Forest.preorder` lists the nodes below node 0.

Children are given to a node once and as a whole. A `ForestEdit` may fail; what it did before it
failed stays done. -/

namespace CaptureForest

/-- The owner of a node, and the node's rank among the owner's children. -/
structure Owner where
  node : Nat
  rank : Nat
  deriving DecidableEq, Repr, Inhabited

structure Place where
  owned : Array Nat := #[]
  shared : Array Nat := #[]
  owner : Option Owner := none
  deriving DecidableEq, Repr, Inhabited

abbrev Forest := Array Place

/-- The node at which walks start. -/
def rootNode : Nat := 0

/-- A change of a forest that may fail. -/
abbrev ForestEdit := EStateM Violation Forest

namespace Forest

def ofNodes (n : Nat) : Forest := Array.replicate n {}

/-! ## Questions -/

/-- The children that a node owns, in order. -/
def children (f : Forest) (node : Nat) : Array Nat := (f[node]?.map (·.owned)).getD #[]

/-- The children that a node shares, in order. -/
def shared (f : Forest) (node : Nat) : Array Nat := (f[node]?.map (·.shared)).getD #[]

/-- The owner of a node and its rank there. -/
def owner? (f : Forest) (node : Nat) : Option Owner := f[node]?.bind (·.owner)

def parent? (f : Forest) (node : Nat) : Option Nat := (f.owner? node).map (·.node)

def rank? (f : Forest) (node : Nat) : Option Nat := (f.owner? node).map (·.rank)

def child? (f : Forest) (node rank : Nat) : Option Nat := (f.children node)[rank]?

def sharedChild? (f : Forest) (node rank : Nat) : Option Nat := (f.shared node)[rank]?

def numOwned (f : Forest) : Nat := f.foldl (fun k p => k + p.owned.size) 0

def numShared (f : Forest) : Nat := f.foldl (fun k p => k + p.shared.size) 0

/-! ## Walks -/

/-- The next sibling of the nearest ancestor that has one, the node itself included; none behind
the root or a node without owner. The climb takes at most `fuel` steps. -/
def climb (f : Forest) : (fuel node : Nat) → Option Nat
  | 0, _ => none
  | fuel + 1, node =>
    if node = rootNode then none
    else
      match f.owner? node with
      | none => none
      | some o =>
        match f.child? o.node (o.rank + 1) with
        | some sibling => some sibling
        | none => climb f fuel o.node

/-- The node behind a node in preorder: its first child, else where the climb leads. -/
def next? (f : Forest) (node : Nat) : Option Nat :=
  match f.child? node 0 with
  | some first => some first
  | none => f.climb f.size node

/-- Adds at most `limit` nodes to `acc`, from `node` on in preorder. -/
def follow (f : Forest) : (limit : Nat) → (node : Option Nat) → (acc : Array Nat) → Array Nat
  | limit + 1, some node, acc => follow f limit (f.next? node) (acc.push node)
  | _, _, acc => acc

def preorderTake (f : Forest) (limit : Nat) : Array Nat :=
  f.follow limit (if f.isEmpty then none else some rootNode) #[]

/-- The nodes below the root in preorder, the root first. -/
def preorder (f : Forest) : Array Nat := f.preorderTake f.size

/-- Takes in the owners of a node, the nearest first; at most `fuel` of them. -/
def ascend {α : Type} (f : Forest) (step : α → Nat → α) : (fuel node : Nat) → (acc : α) → α
  | 0, _, acc => acc
  | fuel + 1, node, acc =>
    match f.parent? node with
    | some p => ascend f step fuel p (step acc p)
    | none => acc

/-- The same loop without a bound: `result` is what it has taken in when it comes to a node without
an owner. Where it comes to none, nothing is related. -/
inductive Ascends {α : Type} (f : Forest) (step : α → Nat → α) :
    (node : Nat) → (acc result : α) → Prop
  | stop {node : Nat} {acc : α} : f.parent? node = none → Ascends f step node acc acc
  | up {node p : Nat} {acc result : α} :
    f.parent? node = some p → Ascends f step p (step acc p) result → Ascends f step node acc result

/-- The owner of a node, the owner's owner and so on. -/
def ancestors (f : Forest) (node : Nat) : Array Nat := f.ascend Array.push f.size node #[]

/-- Counts one more owner. -/
def countOwner (count _owner : Nat) : Nat := count + 1

/-- The number of owners above a node. -/
def depth (f : Forest) (node : Nat) : Nat := f.ascend countOwner f.size node 0

end Forest

namespace ForestEdit

def checkNode (node : Nat) : ForestEdit Unit := fun f =>
  if node < f.size then .ok () f else .error (.nodeOutOfRange node f.size) f

/-- Makes `node` the owner of `child`, which has to be there and to have no owner. -/
def claim (node child rank : Nat) : ForestEdit Unit := fun f =>
  if child < f.size then
    match f.owner? child with
    | some o => .error (.alreadyOwned child o.node node) f
    | none => .ok () (f.modify child fun p => { p with owner := some { node, rank } })
  else
    .error (.nodeOutOfRange child f.size) f

def addChildren (node : Nat) (children : Array Nat) : ForestEdit Unit := do
  checkNode node
  unless ((← get).children node).isEmpty do throw (.alreadyHasChildren node)
  children.toList.zipIdx.forM fun (child, rank) => claim node child rank
  modify fun f => f.modify node fun p => { p with owned := children }

def addShared (node : Nat) (children : Array Nat) : ForestEdit Unit := do
  checkNode node
  let f ← get
  unless (f.shared node).isEmpty do throw (.alreadyHasShared node)
  if let some bad := children.find? (f.size ≤ ·) then throw (.sharedOutOfRange bad)
  modify fun f => f.modify node fun p => { p with shared := children }

def addEdges (node : Nat) (e : Edges) : ForestEdit Unit := do
  unless e.owned.isEmpty do addChildren node e.owned
  unless e.shared.isEmpty do addShared node e.shared

end ForestEdit

def Forest.ofEdgeLists? (g : EdgeLists) : Except Violation Forest :=
  match (g.toList.zipIdx.forM fun (e, node) => ForestEdit.addEdges node e).run
      (Forest.ofNodes g.size) with
  | .ok _ f => .ok f
  | .error v _ => .error v

end CaptureForest
