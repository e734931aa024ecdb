import CaptureForest.Hierarchy.Basic

/-! # Dumps

The text of a view: a line for each node below the root, in preorder, indented by its level. -/

namespace CaptureForest.Hierarchy

/-- The description of a node, empty for a node that is not there. -/
def description (h : Hierarchy) (n : Nat) : String := (h.nodes[n]?.map (·.description)).getD ""

def blanks (n : Nat) : String := "".pushn ' ' n

def nodeLine (h : Hierarchy) (level n : Nat) : String :=
  blanks (2 * level) ++ h.description n ++ "\n"

def sharedLine (h : Hierarchy) (level n : Nat) : String :=
  blanks (2 * level + 2) ++ "* " ++ h.description n ++ "\n"

/-- Adds the lines of a node to `text`: its own and, if wanted, those of its shared children. -/
def addLines (h : Hierarchy) (f : Forest) (withShared : Bool) (text : String) (level n : Nat) :
    String :=
  let text := text ++ h.nodeLine level n
  if withShared then (f.shared n).foldl (fun text s => text ++ h.sharedLine level s) text
  else text

/-- Adds the lines of the trees whose roots and levels are on the stack, at most `fuel` nodes. -/
def dumpFrom (h : Hierarchy) (f : Forest) (withShared : Bool) :
    (fuel : Nat) → (stack : List (Nat × Nat)) → (text : String) → String
  | fuel + 1, (n, level) :: stack, text =>
    let children := (f.children n).toList.map fun c => (c, level + 1)
    dumpFrom h f withShared fuel (children ++ stack) (h.addLines f withShared text level n)
  | _, _, text => text

/-- The text of a view, with or without the shared children of each node. -/
def dump (h : Hierarchy) (v : View) (withShared : Bool) : String :=
  let f := h.forest v
  h.dumpFrom f withShared h.numNodes ((f.children rootNode).toList.map fun c => (c, 0)) ""

/-! ## The loop without a bound -/

/-- The nodes to put on a stack, the first one last: it is taken off before the others. -/
def stacked (children : Array Nat) (level : Nat) : Array (Nat × Nat) :=
  children.reverse.map fun c => (c, level)

/-- The loop takes the last node off the stack, adds its lines and puts its children on the stack,
until no node is left. Where it does not end, nothing is related. -/
inductive Dumps (h : Hierarchy) (f : Forest) (withShared : Bool) :
    (stack : Array (Nat × Nat)) → (text result : String) → Prop
  | done {text : String} : Dumps h f withShared #[] text text
  | node {stack : Array (Nat × Nat)} {n level : Nat} {text result : String} :
    stack.back? = some (n, level) →
    Dumps h f withShared (stack.pop ++ stacked (f.children n) (level + 1))
      (h.addLines f withShared text level n) result →
    Dumps h f withShared stack text result

end CaptureForest.Hierarchy
