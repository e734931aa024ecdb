import CaptureForest.View.EdgeLists

/-! # Derived views

Two ways to make one view from another: `EdgeLists.without` leaves out some nodes, and
`EdgeLists.merged` merges calls that do no work into the call that follows. -/

namespace CaptureForest

namespace EdgeLists

/-- The edges without those from or to a dropped node, except for shared edges, which a node that
stays keeps whatever they lead to. -/
def without (g : EdgeLists) (drop : Nat → Bool) : EdgeLists :=
  g.mapIdx fun node e =>
    if drop node then {} else { e with owned := e.owned.filter fun child => !drop child }

end EdgeLists

/-- What a node is to a merge. -/
inductive CallClass where
  /-- No call: nothing is merged across it. -/
  | noCall
  /-- A call that does work: it takes what was carried up to it. -/
  | eventCall
  /-- A call without work of its own: it disappears, and what it shares is carried on. -/
  | stateCall
  deriving DecidableEq, Repr, Inhabited

/-- A merge on its way through the children of a node. -/
structure Merge where
  /-- The shared children of the calls that disappeared since the last child that stayed. -/
  carried : Array Nat := #[]
  kept : Array Nat := #[]
  lists : EdgeLists

def Merge.visit (g : EdgeLists) (classify : Nat → CallClass) (m : Merge) (child : Nat) : Merge :=
  match classify child with
  | .stateCall => { m with carried := m.carried ++ g.shared child }
  | .noCall => { m with carried := #[], kept := m.kept.push child }
  | .eventCall =>
    if m.carried.isEmpty then { m with kept := m.kept.push child }
    else {
      carried := #[]
      kept := m.kept.push child
      lists := m.lists.setShared child (m.carried ++ g.shared child) }

namespace EdgeLists

def mergeNode (g : EdgeLists) (classify : Nat → CallClass) (lists : EdgeLists) (node : Nat) :
    EdgeLists :=
  if classify node = .stateCall then lists
  else
    let m := (g.owned node).foldl (Merge.visit g classify) { lists }
    m.lists.setOwned node m.kept

/-- Among the children of each node, a call without work disappears; its shared children go in
front of those of the next call that does work, unless a node that is no call stands between. -/
def merged (g : EdgeLists) (classify : Nat → CallClass) : EdgeLists :=
  let start := g.mapIdx fun node e =>
    if classify node = .stateCall then {} else { shared := e.shared }
  (List.range g.size).foldl (g.mergeNode classify) start

end EdgeLists

end CaptureForest
