import CaptureForest.View.Packed

/-! # Walks of packed forests

Behind a node without children the walk goes on at the next sibling of the nearest ancestor that has
one. The climb that looks for it is a loop without a bound: `PackedForest.climbTurn` is one turn of
it, and `Climbs` relates a node to the turn with which the loop is over. `Next` does so for the search
of the node behind a node, and `Yields` for a walk from node to node. Where a loop does not end,
nothing is related. A `Forest` walks alike, but for a bound on its turns. -/

namespace CaptureForest

/-- What a turn of a climb comes to. -/
inductive ClimbTurn where
  | sibling (node : Nat)
  /-- The climb has come to the root. -/
  | root
  | unowned
  /-- The owner is known, but not the rank there. -/
  | unranked
  /-- There is no later sibling; the climb goes on at the owner. -/
  | up (owner : Nat)
  deriving DecidableEq, Repr

def ClimbTurn.answer? : ClimbTurn → Option Nat
  | sibling node => some node
  | root | unowned | unranked | up _ => none

namespace PackedForest

def climbTurn (f : PackedForest) (node : Nat) : ClimbTurn :=
  if node = rootNode then .root
  else
    match f.parent? node with
    | none => .unowned
    | some owner =>
      match f.rank? node with
      | none => .unranked
      | some rank =>
        match f.child? owner (rank + 1) with
        | some sibling => .sibling sibling
        | none => .up owner

/-- The climb from a node goes up `ups` times and is over with the turn `last`. -/
inductive Climbs (f : PackedForest) : (ups node : Nat) → (last : ClimbTurn) → Prop
  | stop {node : Nat} : (∀ owner, f.climbTurn node ≠ .up owner) → Climbs f 0 node (f.climbTurn node)
  | up {ups node owner : Nat} {last : ClimbTurn} :
    f.climbTurn node = .up owner → Climbs f ups owner last → Climbs f (ups + 1) node last

/-- The node behind a node in preorder is its first child, else where the climb leads. The search for
it goes up `ups` times. -/
inductive Next (f : PackedForest) (node : Nat) : (ups : Nat) → (answer : Option Nat) → Prop
  | child {first : Nat} : f.child? node 0 = some first → Next f node 0 (some first)
  | climb {ups : Nat} {last : ClimbTurn} :
    f.child? node 0 = none → f.Climbs ups node last → Next f node ups last.answer?

/-- The nodes that a walk visits from a node on. -/
inductive Yields (f : PackedForest) : (node : Option Nat) → (l : List Nat) → Prop
  | ended : Yields f none []
  | visit {node ups : Nat} {next : Option Nat} {l : List Nat} :
    f.Next node ups next → Yields f next l → Yields f (some node) (node :: l)

/-- The node at which the walk of the whole forest starts. -/
def first? (f : PackedForest) : Option Nat := if 0 < f.size then some rootNode else none

end PackedForest

end CaptureForest
