import CaptureForest.Proofs.Pass.Buffer
import Mathlib.Logic.Function.Basic

/-! # Renamed passes

Two builds of the same work may number their nodes differently. A `Renaming` gives each node of the
one its number in the other, and `Pass.renamed` is what the one remembers in the other's numbers.
All that a pass does to what it remembers is done alike in both numberings
(`Pass.callClosed_renamed` and the lemmas behind it), and `Pass.Recalls` carries this from a pass
to another. -/

namespace CaptureForest

/-- New numbers for the nodes of a pass. -/
structure Renaming where
  map : Nat → Nat
  inj : Function.Injective map
  root : map rootNode = rootNode
  /-- The engines of the pass with the new numbers. It may have more of them. -/
  engines : List (Engine × Nat)
  /-- In the view the nodes of the kind may own others in the pass with the new numbers. -/
  exempt : View → NodeKind → Bool

instance : CoeFun Renaming fun _ => Nat → Nat := ⟨Renaming.map⟩

variable {R : Renaming}

/-! ## What is remembered -/

namespace IbRun

variable {r : IbRun}

def renamed (R : Renaming) (r : IbRun) : IbRun :=
  { r with start := R r.start, chained := r.chained.map R }

theorem top_renamed : (r.renamed R).top = R r.top := by
  simp only [top, renamed, Array.back?_map]
  cases r.chained.back? <;> rfl

theorem size_renamed : (r.renamed R).size = r.size := by simp [size, renamed]

end IbRun

namespace IbStack

variable {s : IbStack}

def renamed (R : Renaming) (s : IbStack) : IbStack := List.map (IbRun.renamed R) s

theorem depth_renamed : (s.renamed R).depth = s.depth := by
  unfold depth renamed
  rw [List.foldr_map]
  simp only [IbRun.size_renamed]

theorem top?_renamed : (s.renamed R).top? = s.top?.map R := by
  cases s with
  | nil => rfl
  | cons r rs => exact congrArg some IbRun.top_renamed

theorem owner?_renamed : (s.renamed R).owner? = s.owner?.map R := by
  cases s with
  | nil => rfl
  | cons r rs =>
    obtain ⟨start, startsChained, chained⟩ := r
    cases startsChained <;> rfl

theorem push_renamed {node : Nat} {kind : IbKind} :
    (s.push node kind).renamed R = (s.renamed R).push (R node) kind := by
  cases kind with
  | normal | call => simp [push, renamed, IbRun.renamed]
  | chain => cases s <;> simp [push, renamed, IbRun.renamed]

theorem tail_renamed : IbStack.renamed R s.tail = (s.renamed R).tail := List.map_tail

end IbStack

def PendingEvent.renamed (R : Renaming) (e : PendingEvent) : PendingEvent :=
  { node := R e.node, allEventOwner := R e.allEventOwner, rgpOwner := R e.rgpOwner }

def Scope.renamed (R : Renaming) (s : Scope) : Scope := { s with call := R s.call }

namespace Pass

variable {p p' q q' : Pass} {submit : Nat}

/-- The pass in other numbers, but for its nodes and edges. -/
def renamed (R : Renaming) (p : Pass) : Pass := { p with
  engines := R.engines
  events := p.events.map R
  submit := p.submit.map R
  drawIbs := p.drawIbs.renamed R
  constantIbs := p.constantIbs.renamed R
  markers := p.markers.map R
  internalMarkers := p.internalMarkers.map R
  openCall := p.openCall.map R
  scope := p.scope.map (Scope.renamed R)
  packets := p.packets.map R
  beginPackets := p.beginPackets.map R
  beginEvents := p.beginEvents.map (PendingEvent.renamed R) }

/-! ## Questions -/

theorem ibs_renamed : (p.renamed R).ibs = p.ibs.renamed R := by
  unfold ibs renamed
  split <;> rfl

theorem ibDepth_renamed : (p.renamed R).ibDepth = p.ibDepth := by
  rw [ibDepth, ibs_renamed, IbStack.depth_renamed, ibDepth]

theorem scope_any_renamed (f : Nat → Bool) :
    (p.renamed R).scope.any (fun s => f s.depth) = p.scope.any fun s => f s.depth := by
  unfold renamed
  cases p.scope <;> rfl

theorem inScope_renamed : (p.renamed R).inScope = p.inScope := by
  rw [inScope, ibDepth_renamed]
  exact scope_any_renamed (· < p.ibDepth)

theorem innermost_renamed : (p.renamed R).innermost (R submit) = R (p.innermost submit) := by
  unfold innermost renamed
  cases p.markers <;> rfl

theorem bufferOwner_renamed : (p.renamed R).bufferOwner (R submit) = R (p.bufferOwner submit) := by
  unfold bufferOwner
  rw [inScope_renamed]
  split
  · unfold renamed
    cases p.scope <;> rfl
  · rfl

theorem ibOwner_renamed {o : Options} {kind : IbKind} :
    ibOwner o (p.renamed R) (R submit) kind = R (ibOwner o p submit kind) := by
  unfold ibOwner
  dsimp only
  rw [ibs_renamed, IbStack.top?_renamed, IbStack.owner?_renamed]
  split
  · cases p.ibs.owner? with
    | none => cases p.ibs.top? <;> rfl
    | some n => rfl
  · cases p.ibs.top? <;> rfl

theorem pendingEvent_renamed {node : Nat} :
    (p.renamed R).pendingEvent (R submit) (R node) = (p.pendingEvent submit node).renamed R := by
  simp only [pendingEvent, innermost_renamed, PendingEvent.renamed]

/-! ## Stacks -/

theorem popThrough_renamed {node : Nat} {stack : List Nat} :
    popThrough (R node) (stack.map R) = (popThrough node stack).map R := by
  have hdrop : (stack.map R).dropWhile (· != R node) = (stack.dropWhile (· != node)).map R := by
    rw [List.dropWhile_map]
    congr 2
    exact funext fun m => by simp [bne, R.inj.eq_iff]
  unfold popThrough
  rw [hdrop]
  cases stack.dropWhile (· != node) <;> rfl

theorem modifyIbs_renamed {f g : IbStack → IbStack}
    (h : ∀ s : IbStack, IbStack.renamed R (f s) = g (s.renamed R)) :
    (p.modifyIbs f).renamed R = (p.renamed R).modifyIbs g := by
  unfold modifyIbs
  rw [show (p.renamed R).onConstantEngine = p.onConstantEngine from rfl]
  split
  · simp only [renamed, h]
  · simp only [renamed, h]

theorem callClosed_renamed : p.callClosed.renamed R = (p.renamed R).callClosed := by
  simp only [callClosed, renamed, Option.isSome_map, apply_ite (List.map R), List.map_tail]
  rfl

theorem pushed_renamed {marker : Nat} :
    (p.pushed marker).renamed R = (p.renamed R).pushed (R marker) := rfl

theorem opened_renamed {marker : Nat} :
    (p.opened marker).renamed R = (p.renamed R).opened (R marker) := rfl

theorem level_renamed : (p.renamed R).level = p.level.map R := by
  unfold level renamed
  cases p.scope with
  | none => rfl
  | some s =>
    obtain ⟨call, depth, levelOpen⟩ := s
    cases levelOpen <;> rfl

theorem levelOpened_renamed : p.levelOpened.renamed R = (p.renamed R).levelOpened := by
  unfold levelOpened
  rw [level_renamed]
  simp only [renamed, List.map_append, Option.map_map]
  rfl

theorem belowLevel_renamed {markers : List Nat} :
    (p.renamed R).belowLevel (markers.map R) = (p.belowLevel markers).map R := by
  unfold belowLevel renamed
  cases p.scope with
  | none => rfl
  | some s =>
    obtain ⟨call, depth, levelOpen⟩ := s
    cases levelOpen with
    | false => rfl
    | true => exact popThrough_renamed

theorem levelClosed_renamed : p.levelClosed.renamed R = (p.renamed R).levelClosed := by
  have hmarkers : (p.renamed R).belowLevel (p.renamed R).markers =
      (p.belowLevel p.markers).map R := belowLevel_renamed
  have hinternal : (p.renamed R).belowLevel (p.renamed R).internalMarkers =
      (p.belowLevel p.internalMarkers).map R := belowLevel_renamed
  unfold levelClosed
  rw [hmarkers, hinternal]
  simp only [renamed, Option.map_map]
  rfl

theorem scopeEntered_renamed : p.scopeEntered.renamed R = (p.renamed R).scopeEntered := by
  rw [scopeEntered_eq, scopeEntered_eq, inScope_renamed, ← levelOpened_renamed]
  exact apply_ite (renamed R) ..

theorem scopeEnded_renamed : p.scopeEnded.renamed R = (p.renamed R).scopeEnded := by
  unfold scopeEnded
  rw [ibDepth_renamed, scope_any_renamed (· == p.ibDepth)]
  simp only [renamed, apply_ite (Option.map (Scope.renamed R))]
  rfl

theorem scopeBegun_renamed {command : Command} {marker : Nat} :
    (p.scopeBegun command marker).renamed R = (p.renamed R).scopeBegun command (R marker) := by
  unfold scopeBegun
  rw [ibDepth_renamed]
  simp only [renamed, apply_ite (Option.map (Scope.renamed R))]
  rfl

theorem beginCleared_renamed : p.beginCleared.renamed R = (p.renamed R).beginCleared := by
  simp [beginCleared, renamed]

theorem packetWaits_renamed {packet : Nat} :
    (p.packetWaits packet).renamed R = (p.renamed R).packetWaits (R packet) := by
  simp [packetWaits, renamed]

theorem entered_renamed {node : Nat} {kind : IbKind} :
    (p.entered node kind).renamed R = (p.renamed R).entered (R node) kind := by
  unfold entered
  rw [beginCleared_renamed]
  exact congrArg beginCleared (modifyIbs_renamed fun _ => IbStack.push_renamed)

theorem popped_renamed : p.popped.renamed R = (p.renamed R).popped := by
  unfold popped
  rw [callClosed_renamed]
  exact congrArg callClosed (modifyIbs_renamed fun _ => IbStack.tail_renamed)

theorem scopeLeft_renamed : p.scopeLeft.renamed R = (p.renamed R).scopeLeft := by
  have hscope : (p.renamed R).scope = p.scope.map (Scope.renamed R) := rfl
  unfold scopeLeft
  rw [hscope, ibDepth_renamed, ← levelClosed_renamed]
  cases p.scope with
  | none => rfl
  | some s =>
    dsimp only [Option.map_some, Scope.renamed]
    split
    · rfl
    · split <;> rfl

/-! ## From a pass to another -/

/-- The pass `p'` remembers what `p` remembers, in its own numbers. -/
def Recalls (R : Renaming) (p p' : Pass) : Prop := p'.context = (p.renamed R).context

theorem popped_context : p.popped.context = p.context.popped.context := by
  unfold popped modifyIbs
  rw [show p.context.onConstantEngine = p.onConstantEngine from rfl]
  split <;> rfl

theorem scopeLeft_context : p.scopeLeft.context = p.context.scopeLeft.context := by
  have hscope : p.context.scope = p.scope := rfl
  have hdepth : p.context.ibDepth = p.ibDepth := rfl
  unfold scopeLeft
  rw [hscope, hdepth]
  split
  · rfl
  · split
    · rfl
    · split <;> rfl

namespace Recalls

/-- What is done alike in both numberings keeps two passes alike. -/
theorem map (f g : Pass → Pass) (h : p.Recalls R p')
    (hfg : ∀ p : Pass, (f p).renamed R = g (p.renamed R))
    (hg : ∀ p : Pass, (g p).context = (g p.context).context) : (f p).Recalls R (g p') := by
  unfold Recalls at h ⊢
  rw [hg, h, ← hg, ← hfg]

theorem congr (h : p.Recalls R p') (hq : q.context = p.context) (hq' : q'.context = p'.context) :
    q.Recalls R q' := by
  have hcontext (q : Pass) : (q.renamed R).context = q.context.renamed R := rfl
  unfold Recalls at h ⊢
  rw [hcontext, hq, hq', h, hcontext]

theorem callClosed (h : p.Recalls R p') : p.callClosed.Recalls R p'.callClosed :=
  h.map Pass.callClosed Pass.callClosed (fun _ => callClosed_renamed) fun _ => rfl

theorem pushed (h : p.Recalls R p') (node : Nat) :
    (p.pushed node).Recalls R (p'.pushed (R node)) :=
  h.map (·.pushed node) (·.pushed (R node)) (fun _ => pushed_renamed) fun _ => rfl

theorem opened (h : p.Recalls R p') (node : Nat) :
    (p.opened node).Recalls R (p'.opened (R node)) :=
  h.map (·.opened node) (·.opened (R node)) (fun _ => opened_renamed) fun _ => rfl

theorem levelClosed (h : p.Recalls R p') : p.levelClosed.Recalls R p'.levelClosed :=
  h.map Pass.levelClosed Pass.levelClosed (fun _ => levelClosed_renamed) fun _ => rfl

theorem scopeEntered (h : p.Recalls R p') : p.scopeEntered.Recalls R p'.scopeEntered :=
  h.map Pass.scopeEntered Pass.scopeEntered (fun _ => scopeEntered_renamed) fun _ => rfl

theorem scopeEnded (h : p.Recalls R p') : p.scopeEnded.Recalls R p'.scopeEnded :=
  h.map Pass.scopeEnded Pass.scopeEnded (fun _ => scopeEnded_renamed) fun _ => rfl

theorem scopeBegun (h : p.Recalls R p') (command : Command) (node : Nat) :
    (p.scopeBegun command node).Recalls R (p'.scopeBegun command (R node)) :=
  h.map (·.scopeBegun command node) (·.scopeBegun command (R node))
    (fun _ => scopeBegun_renamed) fun _ => rfl

theorem beginCleared (h : p.Recalls R p') : p.beginCleared.Recalls R p'.beginCleared :=
  h.map Pass.beginCleared Pass.beginCleared (fun _ => beginCleared_renamed) fun _ => rfl

theorem packetWaits (h : p.Recalls R p') (node : Nat) :
    (p.packetWaits node).Recalls R (p'.packetWaits (R node)) :=
  h.map (·.packetWaits node) (·.packetWaits (R node)) (fun _ => packetWaits_renamed) fun _ => rfl

theorem onEngine (h : p.Recalls R p') (constantEngine : Bool) :
    (p.onEngine constantEngine).Recalls R (p'.onEngine constantEngine) :=
  h.map (·.onEngine constantEngine) (·.onEngine constantEngine) (fun _ => rfl) fun _ => rfl

theorem entered (h : p.Recalls R p') (node : Nat) (kind : IbKind) :
    (p.entered node kind).Recalls R (p'.entered (R node) kind) :=
  h.map (·.entered node kind) (·.entered (R node) kind) (fun _ => entered_renamed) fun _ =>
    (congrArg context entered_context :)

theorem popped (h : p.Recalls R p') : p.popped.Recalls R p'.popped :=
  h.map Pass.popped Pass.popped (fun _ => popped_renamed) fun _ => popped_context

theorem scopeLeft (h : p.Recalls R p') : p.scopeLeft.Recalls R p'.scopeLeft :=
  h.map Pass.scopeLeft Pass.scopeLeft (fun _ => scopeLeft_renamed) fun _ => scopeLeft_context

theorem marked (h : p.Recalls R p') : p.marked.Recalls R p'.marked :=
  h.map Pass.marked Pass.marked (fun _ => rfl) fun _ => rfl

theorem unmarked (h : p.Recalls R p') : p.unmarked.Recalls R p'.unmarked :=
  h.map Pass.unmarked Pass.unmarked (fun _ => rfl) fun _ => rfl

theorem submitClosed (h : p.Recalls R p') : p.submitClosed.Recalls R p'.submitClosed :=
  h.map Pass.submitClosed Pass.submitClosed (fun _ => rfl) fun _ => rfl

end Recalls

end Pass

end CaptureForest
