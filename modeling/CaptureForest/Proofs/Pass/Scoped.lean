import CaptureForest.Proofs.Pass.Nested
import CaptureForest.Proofs.Pass.Follow

/-! # Where scopes are

A recorded call closes the open call first; what it does then to the scope and to the markers below
the next open call is a `Levels.Shift`, and so is what the end of a buffer does to them. At all
moments the scope is that of a call in a buffer that is still open (`Pass.Scoped`), and while it
stands on the marker stacks, the walk is in a buffer deeper than that. -/

namespace CaptureForest

namespace IbStack

variable {s : IbStack} {r : IbRun} {node : Nat}

theorem depth_cons : depth (r :: s) = r.size + depth s := rfl

theorem depth_push (kind : IbKind) : (s.push node kind).depth = s.depth + 1 := by
  have hcons : depth ({ start := node } :: s) = s.depth + 1 := Nat.add_comm 1 _
  cases kind with
  | normal | call => exact hcons
  | chain =>
    cases s with
    | nil => rfl
    | cons r rs =>
      show (r.chained.push node).size + 1 + depth rs = r.chained.size + 1 + depth rs + 1
      rw [Array.size_push]
      omega

theorem depth_pos (h : s ≠ []) : 0 < s.depth := by
  cases s with
  | nil => exact absurd rfl h
  | cons r rs => rw [depth_cons, IbRun.size]; omega

end IbStack

/-- The node is the marker of a call that executes command buffers. -/
def Nodes.Executes (nodes : Nodes) (n : Nat) : Prop :=
  nodes.aux? n = some (.marker .diveMetadata Command.executeCommands.id.toNat)

instance {nodes : Nodes} {n : Nat} : Decidable (nodes.Executes n) :=
  inferInstanceAs (Decidable (_ = _))

theorem Nodes.Executes.lt {nodes : Nodes} {n : Nat} (h : nodes.Executes n) : n < nodes.size :=
  Nodes.aux?_lt h

/-- A scope in one of `depth` open buffers. -/
structure Scope.Within (s : Scope) (nodes : Nodes) (depth : Nat) : Prop where
  call : nodes.Executes s.call
  pos : 0 < s.depth
  le : s.depth ≤ depth
  lt : s.levelOpen → s.depth < depth

/-- What recorded calls and the ends of buffers do to the markers below the open call. -/
structure Levels where
  /-- The markers on the stack, the innermost first, without the open call. -/
  markers : List Nat
  scope : Option Scope

/-- A change of the levels when no call is open. -/
inductive Levels.Shift (nodes : Nodes) (depth : Nat) : Levels → Levels → Prop
  | stays {l : Levels} : Shift nodes depth l l
  /-- The call of the scope becomes the owner of a command buffer in a deeper buffer. -/
  | opensLevel {ms : List Nat} {s : Scope} :
    s.levelOpen = false → s.depth < depth →
    Shift nodes depth ⟨ms, some s⟩ ⟨s.call :: ms, some { s with levelOpen := true }⟩
  | closesLevel {ms : List Nat} {s : Scope} :
    s.levelOpen →
    Shift nodes depth ⟨ms, some s⟩ ⟨Pass.popThrough s.call ms, some { s with levelOpen := false }⟩
  /-- A scope ends, and its level with it. -/
  | closesScope {ms : List Nat} {s : Scope} :
    s.levelOpen → Shift nodes depth ⟨ms, some s⟩ ⟨Pass.popThrough s.call ms, none⟩
  /-- A scope ends that has no level open. -/
  | endsScope {ms : List Nat} {s : Scope} :
    s.levelOpen = false → Shift nodes depth ⟨ms, some s⟩ ⟨ms, none⟩
  | pushesLabel {ms : List Nat} {scope : Option Scope} :
    Shift nodes depth ⟨ms, scope⟩ ⟨nodes.size :: ms, scope⟩
  | popsLabel {m : Nat} {ms : List Nat} {scope : Option Scope} :
    nodes.markerKind? m = some .beginEnd → Shift nodes depth ⟨m :: ms, scope⟩ ⟨ms, scope⟩

/-- A shift keeps scopes within the open buffers. -/
theorem Levels.Shift.within {nodes : Nodes} {depth : Nat} {l l' : Levels}
    (h : Levels.Shift nodes depth l l') (hl : ∀ s, l.scope = some s → s.Within nodes depth) :
    ∀ s, l'.scope = some s → s.Within nodes depth := by
  intro s hs
  cases h with
  | stays | pushesLabel | popsLabel => exact hl s hs
  | opensLevel _ hlt =>
    obtain rfl := Option.some.inj hs
    exact { hl _ rfl with lt := fun _ => hlt }
  | closesLevel =>
    obtain rfl := Option.some.inj hs
    exact { hl _ rfl with lt := nofun }
  | closesScope | endsScope => cases hs

namespace Pass

variable {p q r : Pass} {submit depth : Nat}

/-- The scope is that of a call in an open buffer. While the call owns a command buffer on the
marker stacks, a deeper buffer is open. -/
def Scoped (p : Pass) : Prop := ∀ s, p.scope = some s → s.Within p.nodes p.ibDepth

/-! ## Markers below the open call -/

/-- The levels of a pass. -/
def levels (p : Pass) : Levels := ⟨p.callClosed.markers, p.scope⟩

theorem levels_eq (h : p.openCall = none) : p.levels = ⟨p.markers, p.scope⟩ := by
  rw [levels, callClosed_eq h]

theorem levels_opened {n : Nat} (h : p.openCall = none) : (p.opened n).levels = p.levels := by
  rw [levels, callClosed_opened h, levels_eq h]
  rfl

theorem shift_levelOpened (h : p.openCall = none) (hin : p.inScope) :
    Levels.Shift p.nodes p.ibDepth p.levels p.levelOpened.levels := by
  rw [levels_eq h, levels_eq (p := p.levelOpened) h]
  unfold levelOpened level
  cases hs : p.scope with
  | none => exact .stays
  | some s =>
    obtain ⟨call, depth, levelOpen⟩ := s
    cases levelOpen with
    | false => exact .opensLevel rfl (by simpa [inScope, hs] using hin)
    | true => exact .stays

theorem shift_levelClosed (h : p.openCall = none) :
    Levels.Shift p.nodes depth p.levels p.levelClosed.levels := by
  rw [levels_eq h, levels_eq (p := p.levelClosed) h]
  unfold levelClosed belowLevel
  cases hs : p.scope with
  | none => exact .stays
  | some s =>
    obtain ⟨call, depth, levelOpen⟩ := s
    cases levelOpen with
    | false => exact .stays
    | true => exact .closesLevel rfl

theorem shift_scopeEnded (h : p.openCall = none) (hp : p.Scoped) :
    Levels.Shift p.nodes depth p.levels p.scopeEnded.levels := by
  rw [levels_eq h, levels_eq (p := p.scopeEnded) h]
  unfold scopeEnded
  split
  · rename_i hany
    obtain ⟨s, hs, heq⟩ := Option.any_eq_true _ _ |>.mp hany
    have hclosed : s.levelOpen = false := Bool.eq_false_iff.mpr fun hopen =>
      Nat.ne_of_lt ((hp s hs).lt hopen) (eq_of_beq heq)
    rw [hs]
    exact .endsScope hclosed
  · exact .stays

theorem shift_labelClosed (h : p.openCall = none) :
    Levels.Shift p.nodes depth p.levels p.labelClosed.levels := by
  rw [levels_eq h, levels_eq (p := p.labelClosed) h]
  unfold labelClosed belowLabel
  cases p.markers with
  | nil => exact .stays
  | cons m ms =>
    dsimp only
    split
    · rename_i hk
      exact .popsLabel hk
    · exact .stays

theorem shift_scopeLeft (h : p.openCall = none) :
    Levels.Shift p.nodes depth p.levels p.scopeLeft.levels := by
  unfold scopeLeft
  cases hs : p.scope with
  | none => exact .stays
  | some s =>
    dsimp only
    split
    · rw [levels_eq h, levels_eq (by exact h)]
      obtain ⟨call, depth, levelOpen⟩ := s
      cases levelOpen with
      | false => simpa [levelClosed, belowLevel, hs] using .endsScope rfl
      | true => simpa [levelClosed, belowLevel, hs] using .closesScope rfl
    · split
      · exact shift_levelClosed h
      · exact .stays

/-- A recorded call that executes no command buffers shifts the levels. -/
theorem Obeys.shift {o : Options} {call : CallMarker} (h : Obeys o submit call p q)
    (hp : p.Scoped) (hcall : call.command ≠ .executeCommands) :
    Levels.Shift p.nodes p.ibDepth p.levels q.levels := by
  have hclosed : p.callClosed.levels = p.levels := rfl
  cases h with
  | beginsBuffer _ _ hctx =>
    have hq : q.levels = p.callClosed.scopeEntered.levels := (congrArg levels hctx :).trans
      (levels_opened (p := p.callClosed.scopeEntered.beginCleared) rfl)
    rw [hq, scopeEntered_eq]
    split
    · rename_i hin
      exact shift_levelOpened (p := p.callClosed) rfl hin
    · exact .stays
  | endsBuffer _ _ hctx =>
    have hq : q.levels = (if p.callClosed.inScope then p.callClosed.levelClosed
      else p.callClosed).levels := (congrArg levels hctx :)
    rw [hq]
    split
    · exact shift_levelClosed (p := p.callClosed) rfl
    · exact .stays
  | beginsLabel _ _ hctx =>
    have hq : q.levels = (p.callClosed.pushed p.nodes.size).levels := (congrArg levels hctx :)
    rw [hq]
    exact .pushesLabel
  | endsLabel => exact shift_labelClosed (p := p.callClosed) rfl
  | insertsLabel _ _ hctx =>
    have hq : q.levels = p.callClosed.levels := (congrArg levels hctx :)
    rw [hq]
    exact .stays
  | opensCall _ _ hctx =>
    have hbegun : p.callClosed.scopeEnded.scopeBegun call.command p.nodes.size =
        p.callClosed.scopeEnded := by rw [scopeBegun, if_neg hcall]
    have hq : q.levels = p.callClosed.scopeEnded.levels := by
      refine (congrArg levels hctx :).trans ?_
      show ((p.callClosed.scopeEnded.scopeBegun call.command p.nodes.size).opened
        p.nodes.size).levels = _
      rw [hbegun]
      exact levels_opened rfl
    rw [hq]
    exact shift_scopeEnded (p := p.callClosed) rfl hp

theorem Obeys.nodes {o : Options} {call : CallMarker} (h : Obeys o submit call p q) :
    ∃ new : List Node, q.nodes = p.nodes ++ new := by
  cases h with
  | beginsBuffer _ hq | endsBuffer _ hq | beginsLabel _ hq | insertsLabel _ hq | opensCall _ hq =>
    exact ⟨_, hq.nodes⟩
  | endsLabel => exact ⟨[], Array.appendList_nil.symm⟩

/-- A call that executes command buffers becomes the open call, and its scope begins. -/
theorem Obeys.begins {o : Options} {call : CallMarker} (h : Obeys o submit call p q)
    (hcall : call.command = .executeCommands) :
    q.nodes.Executes p.nodes.size ∧ q.openCall = some p.nodes.size ∧
      q.levels = ⟨p.levels.markers, some { call := p.nodes.size, depth := p.ibDepth }⟩ := by
  have hlabel : call.command.opensLabel = false ∧ call.command.closesLabel = false ∧
      call.command.insertsLabel = false := by rw [hcall]; decide
  cases h with
  | beginsBuffer hc | endsBuffer hc => rw [hcall] at hc; cases hc
  | beginsLabel hc => rw [hlabel.1] at hc; cases hc
  | endsLabel hc => rw [hlabel.2.1] at hc; cases hc
  | insertsLabel hc => rw [hlabel.2.2] at hc; cases hc
  | opensCall _ hq hctx =>
    refine ⟨?_, (congrArg Pass.openCall hctx :), ?_⟩
    · rw [Nodes.Executes, hq.nodes, Nodes.aux?_append_head, callNode, hcall]
      rfl
    · refine (congrArg levels hctx :).trans ?_
      show Levels.mk _ (scopeBegun _ call.command p.nodes.size).scope = _
      rw [scopeBegun, if_pos hcall]
      rfl

/-! ## The depth of scopes -/

namespace Scoped

/-- A scope lasts where nodes are added and the buffers stay. -/
theorem grow {new : List Node} (h : p.Scoped) (hnodes : q.nodes = p.nodes ++ new)
    (hibs : q.ibs = p.ibs) (hscope : q.scope = p.scope) : q.Scoped := by
  intro s hs
  have hw := h s (hscope ▸ hs)
  rw [ibDepth, hibs, hnodes]
  exact { hw with call := Nodes.aux?_append hw.call }

theorem congr (h : p.Scoped) (hnodes : q.nodes = p.nodes) (hibs : q.ibs = p.ibs)
    (hscope : q.scope = p.scope) : q.Scoped :=
  h.grow (hnodes.trans Array.appendList_nil.symm) hibs hscope

theorem none (hscope : q.scope = none) : q.Scoped := by
  intro s hs
  rw [hscope] at hs
  cases hs

theorem obeys {o : Options} {call : CallMarker} (h : p.Scoped) (hq : Obeys o submit call p q)
    (hibs : p.ibs ≠ []) : q.Scoped := by
  have hdepth : q.ibDepth = p.ibDepth := (congrArg Pass.ibDepth hq.still_eq :)
  by_cases hcall : call.command = .executeCommands
  · obtain ⟨hexec, -, hlevels⟩ := hq.begins hcall
    intro s hs
    obtain rfl := Option.some.inj ((congrArg Levels.scope hlevels).symm.trans hs)
    exact ⟨hexec, IbStack.depth_pos hibs, Nat.le_of_eq hdepth.symm, nofun⟩
  · intro s hs
    have hw := (hq.shift h hcall).within h s hs
    obtain ⟨new, hnodes⟩ := hq.nodes
    rw [hdepth, hnodes]
    exact { hw with call := Nodes.aux?_append hw.call }

end Scoped

theorem Enters.onEngine_ibs {o : Options} {ibIndex : Nat} {ib : IndirectBuffer} {kind : IbKind}
    (h : Enters o submit ibIndex ib kind p q) : (p.onEngine ib.constantEngine).ibs = p.ibs := by
  rcases h.engine with heq | ⟨hdraw, hconstant⟩
  · rw [heq]
    rfl
  · simp [ibs, onEngine, hdraw, hconstant]

/-- Entered buffers are pushed on the stack. -/
theorem Enters.ibs_eq {o : Options} {ibIndex : Nat} {ib : IndirectBuffer} {kind : IbKind}
    (h : Enters o submit ibIndex ib kind p q) : q.ibs = p.ibs.push p.nodes.size kind := by
  have hpush : q.ibs = (p.onEngine ib.constantEngine).ibs.push p.nodes.size kind :=
    (congrArg Pass.ibs h.context :).trans modifyIbs_ibs
  rw [hpush, h.onEngine_ibs]

theorem popped_scope : p.popped.scope = p.scope := by
  obtain ⟨_, _, heq⟩ := p.modifyIbs_eq List.tail
  rw [popped, heq]
  rfl

/-- Where a run of buffers is left, a scope that is too deep ends, and its level with it. -/
theorem Scoped.leaves (h : p.Scoped) : p.popped.scopeLeft.beginCleared.Scoped := by
  suffices hleft : p.popped.scopeLeft.Scoped from hleft.congr rfl rfl rfl
  have hcall {s : Scope} (hs : p.popped.scope = some s) :
      p.popped.nodes.Executes s.call ∧ 0 < s.depth := by
    have hw := h s (popped_scope ▸ hs)
    have hnodes : p.popped.nodes = p.nodes := modifyIbs_nodes
    exact ⟨hnodes ▸ hw.call, hw.pos⟩
  unfold scopeLeft
  split
  · rename_i hs
    exact .none hs
  · rename_i s hs
    obtain ⟨hexec, hpos⟩ := hcall hs
    split
    · exact .none rfl
    · rename_i hge
      split
      · intro s' hs'
        obtain ⟨_, heq, rfl⟩ := Option.map_eq_some_iff.mp hs'
        obtain rfl := Option.some.inj (hs.symm.trans heq)
        exact ⟨hexec, hpos, Nat.le_of_not_lt hge, nofun⟩
      · intro s' hs'
        obtain rfl := Option.some.inj (hs.symm.trans hs')
        exact ⟨hexec, hpos, Nat.le_of_not_lt hge, fun _ => by omega⟩

/-- Every change keeps the scope in an open buffer. -/
theorem Change.scoped (hc : p.Change q) (h : p.Scoped) : q.Scoped := by
  cases hc with
  | submitBegins _ _ hq hctx =>
    exact h.grow hq.nodes (congrArg Pass.ibs hctx :) (congrArg Pass.scope hctx :)
  | enters _ hq =>
    obtain ⟨_, _, hctx⟩ := hq.context_eq
    have hscope : q.scope = p.scope := (congrArg Pass.scope hctx :)
    intro s hs
    have hw := h s (hscope ▸ hs)
    have hdepth : q.ibDepth = p.ibDepth + 1 := by
      rw [ibDepth, hq.ibs_eq, IbStack.depth_push]
      rfl
    rw [hdepth, hq.adds.nodes]
    exact ⟨Nodes.aux?_append hw.call, hw.pos, Nat.le_succ_of_le hw.le,
      fun _ => Nat.lt_succ_of_le hw.le⟩
  | leaves => exact h.leaves
  | logs _ _ hq =>
    exact h.grow hq.adds.nodes (congrArg Pass.ibs hq.context :) (congrArg Pass.scope hq.context :)
  | works _ hq =>
    cases hq with
    | sync _ _ hq hctx | event _ _ hq hctx =>
      exact h.grow hq.nodes (congrArg Pass.ibs hctx :) (congrArg Pass.scope hctx :)
    | nothing => exact h
  | shares _ hq =>
    exact h.grow hq.adds.nodes (congrArg Pass.ibs hq.context :) (congrArg Pass.scope hq.context :)
  | obeys _ hibs hq => exact h.obeys hq hibs
  | marks | clears | sorts => exact h.congr rfl rfl rfl
  | unmarks => exact .none rfl
  | endsState _ hq hctx | presents hq hctx =>
    exact h.grow hq.nodes (congrArg Pass.ibs hctx :) (congrArg Pass.scope hctx :)
  | submitEnds _ _ hscope => exact .none hscope

end Pass

end CaptureForest
