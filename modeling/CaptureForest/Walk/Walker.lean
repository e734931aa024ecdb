import CaptureForest.Walk.Run

/-! # Walkers

`Walk.run` hands down the number of levels that are left. A walker counts the levels it is in
instead, with a counter that outlives the walk: it goes up with every buffer that is listed or
called and down when that buffer ends. An error stops the walk where it is and leaves the counter
raised, so the next walk starts by resetting it.

The receiver's steps and the counter are one state here, so that walks of several submits in a row
can be compared with those of a new walker. -/

namespace CaptureForest

/-- A walker together with the receiver that it reports to. -/
structure Walker (σ : Type) where
  /-- Levels entered and not left again. -/
  depth : Nat
  receiver : σ
  deriving DecidableEq, Repr

namespace Walk

variable {σ α : Type}

/-- What a receiver does leaves the counter alone. -/
def onReceiver (x : EStateM Error σ α) : EStateM Error (Walker σ) α := fun c =>
  match x c.receiver with
  | .ok a s => .ok a { c with receiver := s }
  | .error e s => .error e { c with receiver := s }

/-- The walk, reported through a walker. -/
def byWalker (w : Walk σ) : Walk (Walker σ) where
  memory := w.memory
  submit := w.submit
  emit step := onReceiver (w.emit step)

/-- Enters one more level. The counter is raised before it is held against the bound. -/
def descend (va : Nat) : EStateM Error (Walker σ) Unit := do
  modify fun c => { c with depth := c.depth + 1 }
  if maxDepth < (← get).depth then throw (.violation (.nestingTooDeep va))

/-- Leaves a level. -/
def ascend : EStateM Error (Walker σ) Unit :=
  modify fun c => { c with depth := c.depth - 1 }

/-- A buffer that has been listed or called, with those chained to it and called from them. What
bounds the nesting is the counter; `fuel` is there for the recursion and does not run out. -/
def level (w : Walk σ) (ibIndex : Nat) :
    (fuel : Nat) → (ib : IndirectBuffer) → EStateM Error (Walker σ) Unit
  | 0, ib => throw (.violation (.nestingTooDeep ib.va))
  | fuel + 1, ib => do
    descend ib.va
    w.byWalker.chain (w.level ibIndex fuel) ibIndex maxChain ib
    ascend

/-- The walk of a submit's buffers, by a walker in no level. -/
def listed (w : Walk σ) (ibs : List IndirectBuffer) : EStateM Error (Walker σ) Unit :=
  ibs.zipIdx.forM fun (ib, ibIndex) => do
    w.byWalker.emit (.enter ibIndex ib .normal)
    w.level ibIndex (maxDepth + 1) ib

/-- The walk of a submit's buffers, by a walker that may have walked before. -/
def execute (w : Walk σ) (ibs : List IndirectBuffer) : EStateM Error (Walker σ) Unit := do
  modify fun c => { c with depth := 0 }
  w.listed ibs

end Walk

end CaptureForest
