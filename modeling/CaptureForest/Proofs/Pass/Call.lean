import CaptureForest.Proofs.Pass.Packet
import CaptureForest.Pass.Call

/-! # What recorded calls do

Every recorded call closes the open call first. Most of them then add a marker below the innermost
marker that is still open, and change the markers. A command buffer that begins also takes the
events and packets that are remembered for it (`Pass.Regroups`). -/

namespace CaptureForest.Pass

variable {p q r : Pass} {submit : Nat}

/-! ## Open calls, labels and levels -/

/-- The pass when the open call is closed. -/
def callClosed (p : Pass) : Pass := { p with
  openCall := none
  markers := if p.openCall.isSome then p.markers.tail else p.markers
  internalMarkers := if p.openCall.isSome then p.internalMarkers.tail else p.internalMarkers }

/-- The pass when a marker is opened that stays open. -/
def pushed (p : Pass) (marker : Nat) : Pass := { p with
  markers := marker :: p.markers
  internalMarkers := marker :: p.internalMarkers }

/-- The pass when the call of a marker is opened. -/
def opened (p : Pass) (marker : Nat) : Pass := { p.pushed marker with openCall := some marker }

/-- The markers when the innermost label is closed. -/
def belowLabel (p : Pass) : List Nat :=
  match p.markers with
  | [] => []
  | top :: below => if p.nodes.markerKind? top = some .beginEnd then below else top :: below

/-- The pass when the innermost label is closed. -/
def labelClosed (p : Pass) : Pass :=
  { p with markers := p.belowLabel, internalMarkers := p.belowLabel }

/-- The markers above which the call of the scope becomes an owner. -/
def level (p : Pass) : List Nat :=
  match p.scope with
  | some s => if s.levelOpen then [] else [s.call]
  | none => []

/-- The pass when the call of the scope is an owner on the marker stacks. -/
def levelOpened (p : Pass) : Pass := { p with
  scope := p.scope.map ({ · with levelOpen := true })
  markers := p.level ++ p.markers
  internalMarkers := p.level ++ p.internalMarkers }

/-- The markers when the call of the scope is no owner any more. -/
def belowLevel (p : Pass) (markers : List Nat) : List Nat :=
  match p.scope with
  | some s => if s.levelOpen then popThrough s.call markers else markers
  | none => markers

/-- The pass when the call of the scope is no owner any more. -/
def levelClosed (p : Pass) : Pass := { p with
  scope := p.scope.map ({ · with levelOpen := false })
  markers := p.belowLevel p.markers
  internalMarkers := p.belowLevel p.internalMarkers }

/-- The pass when a command buffer may begin. -/
def scopeEntered (p : Pass) : Pass := { p with
  scope := if p.inScope then p.levelOpened.scope else p.scope
  markers := if p.inScope then p.levelOpened.markers else p.markers
  internalMarkers := if p.inScope then p.levelOpened.internalMarkers else p.internalMarkers }

theorem scopeEntered_eq : p.scopeEntered = if p.inScope then p.levelOpened else p := by
  unfold scopeEntered
  split <;> rfl

/-- The pass when a scope that began at the same depth has ended. -/
def scopeEnded (p : Pass) : Pass :=
  { p with scope := if p.scope.any (·.depth == p.ibDepth) then none else p.scope }

/-- The pass when a call begins a scope, if it executes command buffers. -/
def scopeBegun (p : Pass) (c : Command) (marker : Nat) : Pass :=
  { p with scope := if c = .executeCommands then some { call := marker, depth := p.ibDepth }
    else p.scope }

/-- The pass when the events and packets are forgotten that a command buffer would take over. -/
def beginCleared (p : Pass) : Pass := { p with beginPackets := #[], beginEvents := #[] }

theorem popThrough_subset {node m : Nat} {stack : List Nat} (h : m ∈ popThrough node stack) :
    m ∈ stack := by
  unfold popThrough at h
  split at h
  · exact h
  · rename_i below hd
    exact (List.dropWhile_sublist _).subset (hd ▸ List.mem_cons_of_mem _ h)

theorem belowLevel_subset {m : Nat} {markers : List Nat} (h : m ∈ p.belowLevel markers) :
    m ∈ markers := by
  unfold belowLevel at h
  split at h
  · split at h
    · exact popThrough_subset h
    · exact h
  · exact h

theorem belowLabel_subset {m : Nat} (h : m ∈ p.belowLabel) : m ∈ p.markers := by
  unfold belowLabel at h
  split at h
  · simp at h
  · rename_i hm
    rw [hm]
    split at h
    · exact List.mem_cons_of_mem _ h
    · exact h

namespace Stacked

variable {P : Nat → Prop} {m : Nat}

theorem callClosed (h : p.Stacked P) : p.callClosed.Stacked P :=
  { h with
    markers := fun m hm => by
      refine h.markers m ?_
      by_cases hc : p.openCall.isSome
      · exact List.mem_of_mem_tail (by simpa [Pass.callClosed, hc] using hm)
      · simpa [Pass.callClosed, hc] using hm
    aligned := by simp only [Pass.callClosed, h.aligned]
    openCall := by simp [Pass.callClosed] }

theorem pushed (h : p.Stacked P) (hm : P m) (hc : p.openCall = none) : (p.pushed m).Stacked P :=
  { h with
    markers := fun n hn => (List.mem_cons.mp hn).elim (fun hn => hn ▸ hm) (h.markers n)
    aligned := by simp only [Pass.pushed, h.aligned]
    openCall := by simp [Pass.pushed, hc] }

theorem opened (h : p.Stacked P) (hm : P m) : (p.opened m).Stacked P :=
  { h with
    markers := fun n hn => (List.mem_cons.mp hn).elim (fun hn => hn ▸ hm) (h.markers n)
    aligned := by simp only [Pass.opened, Pass.pushed, h.aligned]
    openCall := by simp [Pass.opened, Pass.pushed] }

theorem labelClosed (h : p.Stacked P) (hc : p.openCall = none) : p.labelClosed.Stacked P :=
  { h with
    markers := fun n hn => h.markers n (belowLabel_subset hn)
    aligned := rfl
    openCall := by simp [Pass.labelClosed, hc] }

theorem levelOpened (h : p.Stacked P) (hc : p.openCall = none) : p.levelOpened.Stacked P :=
  { h with
    markers := fun n hn => by
      refine (List.mem_append.mp hn).elim (fun hn => ?_) (h.markers n)
      unfold level at hn
      split at hn
      · rename_i s hs
        split at hn
        · simp at hn
        · rw [List.mem_singleton.mp hn]; exact h.scope s hs
      · simp at hn
    aligned := by simp only [Pass.levelOpened, h.aligned]
    openCall := by simp [Pass.levelOpened, hc]
    scope := fun s hs => by
      obtain ⟨s', hs', rfl⟩ := Option.map_eq_some_iff.mp hs
      exact h.scope s' hs' }

theorem levelClosed (h : p.Stacked P) (hc : p.openCall = none) : p.levelClosed.Stacked P :=
  { h with
    markers := fun n hn => h.markers n (belowLevel_subset hn)
    aligned := by simp only [Pass.levelClosed, h.aligned]
    openCall := by simp [Pass.levelClosed, hc]
    scope := fun s hs => by
      obtain ⟨s', hs', rfl⟩ := Option.map_eq_some_iff.mp hs
      exact h.scope s' hs' }

theorem scopeEntered (h : p.Stacked P) (hc : p.openCall = none) : p.scopeEntered.Stacked P := by
  rw [scopeEntered_eq]
  split
  · exact h.levelOpened hc
  · exact h

theorem scopeEnded (h : p.Stacked P) : p.scopeEnded.Stacked P :=
  { h with
    scope := fun s hs => by
      unfold Pass.scopeEnded at hs
      dsimp only at hs
      split at hs
      · cases hs
      · exact h.scope s hs }

theorem scopeBegun (h : p.Stacked P) (c : Command) (hm : c = .executeCommands → P m) :
    (p.scopeBegun c m).Stacked P :=
  { h with
    scope := fun s hs => by
      unfold Pass.scopeBegun at hs
      dsimp only at hs
      split at hs
      · rename_i hc
        cases hs
        exact hm hc
      · exact h.scope s hs }

end Stacked

theorem Ready.callClosed (h : p.Ready submit) : p.callClosed.Ready submit :=
  { h with stacked := h.stacked.callClosed }

theorem closeCall_succeeds (h : p.Ready submit) :
    Succeeds closeCall p fun _ q => q = p.callClosed := by
  unfold closeCall
  simp only [leads_bind, leads_get]
  cases hc : p.openCall with
  | none => cases p; simp_all [callClosed]
  | some call =>
    have hhead := h.stacked.openCall call hc
    simp [hhead, callClosed, hc, popTop, h.stacked.aligned]

theorem endLabel_succeeds (h : p.Ready submit) :
    Succeeds endLabel p fun _ q => q = p.callClosed.labelClosed := by
  refine (closeCall_succeeds h).bind ?_
  rintro _ _ rfl
  have ha := h.callClosed.stacked.aligned
  generalize p.callClosed = q at ha ⊢
  unfold labelClosed belowLabel
  simp only [leads_modify]
  cases hm : q.markers with
  | nil => cases q; simp_all
  | cons top below =>
    dsimp only
    split
    · simp [popTop, ha, hm]
    · cases q; simp_all

theorem openLevel_succeeds :
    Succeeds openLevel p fun level q => level = p.scope.map (·.call) ∧ q = p.levelOpened := by
  unfold openLevel pushMarker levelOpened level
  simp only [leads_bind, leads_get]
  cases hs : p.scope with
  | none => cases p; simp_all
  | some s =>
    obtain ⟨call, depth, levelOpen⟩ := s
    cases levelOpen <;> cases p <;> simp_all

theorem closeLevel_succeeds : Succeeds closeLevel p fun _ q => q = p.levelClosed := by
  unfold closeLevel levelClosed belowLevel
  simp only [leads_modify]
  cases hs : p.scope with
  | none => cases p; simp_all
  | some s =>
    obtain ⟨call, depth, levelOpen⟩ := s
    cases levelOpen <;> cases p <;> simp_all

/-! ## Calls that add a marker -/

/-- The marker node of a call that is no label. -/
def callNode (o : Options) (version : UInt32) (call : CallMarker) (kind : MarkerKind) : Node where
  kind := .marker
  description := call.text o.printer version
  aux := .marker kind call.command.id.toNat
  metadata := call.args

/-- The marker node of a label. -/
def labelNode (call : CallMarker) (kind : MarkerKind) (id : Nat) : Node where
  kind := .marker
  description := call.labelText
  aux := .marker kind id
  metadata := call.args

theorem addCallNode_succeeds (h : p.Sized) (o : Options) (call : CallMarker) (kind : MarkerKind) :
    Succeeds (addCallNode o call kind) p fun n q => n = p.nodes.size ∧
      p.Adds q [callNode o p.metadataVersion call kind] .none .none ∧ q.context = p.context :=
  addNode_succeeds h _

/-- A new node is attached to the innermost marker. -/
theorem Ready.attach {α : Type} (h : p.Ready submit) {node : Node} {x : PassM Nat}
    {f : Nat → PassM α} {Q : α → Pass → Prop} {E : Error → Pass → Prop}
    (hx : Succeeds x p fun n q =>
      n = p.nodes.size ∧ p.Adds q [node] .none .none ∧ q.context = p.context)
    (hf : ∀ q : Pass,
      p.Adds q [node] (.on View.withEvents [(p.innermost submit, p.nodes.size)]) .none →
      q.context = p.context → Leads (f p.nodes.size) q Q E) :
    Leads (do
      let n ← x
      attachToMarkers submit n
      f n) p Q E := by
  refine hx.bind ?_
  rintro _ q ⟨rfl, hq, hctx⟩
  refine (attachToMarkers_succeeds (h.adds hq hctx) (by
    rw [hq.size]; exact Nat.lt_succ_self _)).bind ?_
  rintro _ r ⟨hr, hctx'⟩
  have hm : q.markers = p.markers := (congrArg Pass.markers hctx :)
  simp only [innermost, hm] at hr
  exact hf r (hq.trans hr) (hctx'.trans hctx)

theorem addLabelNode_succeeds (h : p.Ready submit) (call : CallMarker) (kind : MarkerKind) :
    Succeeds (addLabelNode submit call kind) p fun n q => n = p.nodes.size ∧
      p.Adds q [labelNode call kind p.numLabels]
        (.on View.withEvents [(p.innermost submit, p.nodes.size)]) .none ∧
      q.context = { p.context with numLabels := p.numLabels + 1 } := by
  have hstart : Ready { p with numLabels := p.numLabels + 1 } submit :=
    { h with stacked := { h.stacked with } }
  unfold addLabelNode
  refine leads_bind.mpr (leads_get.mpr (leads_bind.mpr (leads_modify.mpr ?_)))
  refine hstart.attach (addNode_succeeds hstart.sized _) fun q hq hctx => ?_
  exact ⟨rfl, hq.congr rfl rfl rfl rfl, hctx⟩

theorem endCommandBuffer_succeeds (h : p.Ready submit) (o : Options) (call : CallMarker) :
    Succeeds (endCommandBuffer o submit call) p fun _ q =>
      p.Adds q [callNode o p.metadataVersion call .diveMetadata]
        (.on View.withEvents [(p.callClosed.innermost submit, p.nodes.size)]) .none ∧
      q.context =
        (if p.callClosed.inScope then p.callClosed.levelClosed else p.callClosed).context := by
  refine (closeCall_succeeds h).bind ?_
  rintro _ _ rfl
  refine h.callClosed.attach (addCallNode_succeeds h.callClosed.sized o call _) fun q hq hctx => ?_
  have hscope : q.inScope = p.callClosed.inScope := (congrArg Pass.inScope hctx :)
  refine leads_bind.mpr (leads_get.mpr (leads_ite.mpr ⟨fun hin => ?_, fun hin => ?_⟩))
  · rw [if_pos (hscope ▸ hin)]
    refine closeLevel_succeeds.imp ?_
    rintro _ _ rfl
    exact ⟨hq.congr rfl rfl rfl rfl, (congrArg Pass.levelClosed hctx :)⟩
  · rw [if_neg (hscope ▸ hin)]
    exact ⟨hq.congr rfl rfl rfl rfl, hctx⟩

theorem beginLabel_succeeds (h : p.Ready submit) (call : CallMarker) :
    Succeeds (beginLabel submit call) p fun _ q =>
      p.Adds q [labelNode call .beginEnd p.numLabels]
        (.on View.withEvents [(p.callClosed.innermost submit, p.nodes.size)]) .none ∧
      q.context = { (p.callClosed.pushed p.nodes.size).context with
        numLabels := p.numLabels + 1 } := by
  refine (closeCall_succeeds h).bind ?_
  rintro _ _ rfl
  refine (addLabelNode_succeeds h.callClosed call .beginEnd).bind ?_
  rintro _ q ⟨rfl, hq, hctx⟩
  exact ⟨hq.congr rfl rfl rfl rfl, (congrArg (Pass.pushed · p.nodes.size) hctx :)⟩

theorem insertLabel_succeeds (h : p.Ready submit) (call : CallMarker) :
    Succeeds (insertLabel submit call) p fun _ q =>
      p.Adds q [labelNode call .insert p.numLabels]
        (.on View.withEvents [(p.callClosed.innermost submit, p.nodes.size)]) .none ∧
      q.context = { p.callClosed.context with numLabels := p.numLabels + 1 } := by
  refine (closeCall_succeeds h).bind ?_
  rintro _ _ rfl
  refine leads_discard.mpr ((addLabelNode_succeeds h.callClosed call .insert).imp ?_)
  rintro _ q ⟨-, hq, hctx⟩
  exact ⟨hq.congr rfl rfl rfl rfl, hctx⟩

theorem scopeEnded_eq :
    (if p.scope.any (·.depth == p.ibDepth) then { p with scope := none } else p) =
      p.scopeEnded := by
  unfold scopeEnded
  split <;> rfl

theorem otherCall_succeeds (h : p.Ready submit) (o : Options) (call : CallMarker) :
    Succeeds (otherCall o submit call) p fun _ q =>
      p.Adds q [callNode o p.metadataVersion call (callKind call.command)]
        (.on View.withEvents [(p.callClosed.innermost submit, p.nodes.size)]) .none ∧
      q.context = ((p.callClosed.scopeEnded.opened p.nodes.size).scopeBegun call.command
        p.nodes.size).context := by
  refine (closeCall_succeeds h).bind ?_
  rintro _ _ rfl
  refine leads_bind.mpr (leads_get.mpr (leads_bind.mpr (leads_modify.mpr ?_)))
  rw [scopeEnded_eq]
  have hstart : p.callClosed.scopeEnded.Ready submit :=
    { h.callClosed with stacked := h.callClosed.stacked.scopeEnded }
  refine hstart.attach (addCallNode_succeeds hstart.sized o call _) fun q hq hctx => ?_
  refine leads_bind.mpr (Leads.intro_at () (q.opened p.nodes.size) rfl ?_)
  refine leads_ite.mpr ⟨fun hc => ?_, fun hc => ?_⟩
  · refine leads_modify.mpr ⟨hq.congr rfl rfl rfl rfl, ?_⟩
    simp only [scopeBegun, hc, if_true]
    exact (congrArg (fun c : Pass => { c.opened p.nodes.size with
      scope := some { call := p.nodes.size, depth := p.callClosed.ibDepth } }) hctx :)
  · refine leads_pure.mpr ⟨hq.congr rfl rfl rfl rfl, ?_⟩
    simp only [scopeBegun, hc, if_false]
    exact (congrArg (Pass.opened · p.nodes.size) hctx :)

/-! ## Command buffers that begin -/

/-- As `Pass.Adds`, when the nodes `moved` have been taken from their owners in the views with
events. -/
structure Regroups (p q : Pass) (moved : List Nat) (new : List Node) (owned shared : Links) :
    Prop where
  nodes : q.nodes = p.nodes ++ new
  sized : q.Sized
  owned : ∀ v n, q.owned v n =
    (if v ∈ View.withEvents then (p.owned v n).filter (· ∉ moved) else p.owned v n) ++
      (owned v).children n
  shared : ∀ v n, q.shared v n = p.shared v n ++ (shared v).children n

namespace Regroups

variable {moved : List Nat} {new more : List Node} {owned owned' shared shared' : Links}

theorem adds (h : p.Regroups q moved new owned shared) (h' : q.Adds r more owned' shared') :
    p.Regroups r moved (new ++ more) (owned ++ owned') (shared ++ shared') where
  nodes := by rw [h'.nodes, h.nodes, Nodes.append_append_list]
  sized := h'.sized
  owned v n := by simp [h'.owned, h.owned]
  shared v n := by simp [h'.shared, h.shared]

end Regroups

theorem Adds.regroups {moved : List Nat} {new more : List Node} {owned shared : Links}
    (h : p.Adds q new .none .none) (h' : q.Regroups r moved more owned shared) :
    p.Regroups r moved (new ++ more) owned shared where
  nodes := by rw [h'.nodes, h.nodes, Nodes.append_append_list]
  sized := h'.sized
  owned v n := by simp [h'.owned, h.owned]
  shared v n := by simp [h'.shared, h.shared]

theorem Adds.regroups_nil {new : List Node} {owned shared : Links}
    (h : p.Adds q new owned shared) : p.Regroups q [] new owned shared where
  nodes := h.nodes
  sized := h.sized
  owned v n := by simp [h.owned, List.filter_eq_self.mpr]
  shared := h.shared

theorem nodup_eraseDups (l : List Nat) : l.eraseDups.Nodup := by
  induction hn : l.length using Nat.strongRecOn generalizing l with
  | _ n ih =>
    cases l with
    | nil => simp
    | cons a l =>
      rw [List.eraseDups_cons, List.nodup_cons]
      refine ⟨by simp [List.mem_eraseDups], ih _ ?_ _ rfl⟩
      have := List.length_filter_le (fun b => !b == a) l
      simp only [List.length_cons] at hn
      omega

/-- The nodes have other children in a view now, and all else is as it was. -/
structure Replaces (p q : Pass) (v : View) (children : Nat → List Nat) : Prop where
  nodes : q.nodes = p.nodes
  sized : q.Sized
  context : q.context = p.context
  owned : ∀ w n, q.owned w n = if w = v then children n else p.owned w n
  shared : ∀ w n, q.shared w n = p.shared w n

namespace Replaces

variable {v : View} {children children' : Nat → List Nat}

theorem refl (h : p.Sized) : p.Replaces p v (p.owned v) :=
  ⟨rfl, h, rfl, fun w n => by split <;> simp_all, fun _ _ => rfl⟩

theorem congr (h : p.Replaces q v children) (hc : ∀ n, children' n = children n) :
    p.Replaces q v children' :=
  { h with owned := fun w n => by rw [h.owned, hc] }

theorem setOwned (h : p.Replaces q v children) {key : Nat} (hlt : key < (q.edges.get v).size)
    (new : Array Nat) :
    p.Replaces { q with edges := q.edges.set v ((q.edges.get v).setOwned key new) } v
      fun n => if n = key then new.toList else children n where
  nodes := h.nodes
  sized w := by
    rw [Views.get_set]
    split
    · rename_i hw
      rw [EdgeLists.size_setOwned]
      exact h.sized v
    · exact h.sized w
  context := h.context
  owned w n := by
    by_cases hw : w = v
    · subst hw
      have := h.owned w n
      rw [if_pos rfl, Pass.owned] at this
      simp only [Pass.owned, Views.get_set, if_true, EdgeLists.owned_setOwned hlt]
      split
      · rfl
      · exact this
    · simpa [Pass.owned, Views.get_set, hw] using h.owned w n
  shared w n := by
    rw [← h.shared w n]
    by_cases hw : w = v
    · subst hw
      simp [Pass.shared, Views.get_set]
    · simp [Pass.shared, Views.get_set, hw]

end Replaces

/-- Nodes that stand among the children of their owners in their order can be detached. -/
theorem detach_succeeds {v : View} {pairs : EdgeLog} (h : p.Sized)
    (hsub : ∀ o, (pairs.children o).Sublist (p.owned v o)) (hnd : ∀ o, (p.owned v o).Nodup) :
    Succeeds (detach v pairs) p fun _ q =>
      p.Replaces q v fun n => (p.owned v n).filter (· ∉ pairs.children n) := by
  unfold detach groupByKey
  rw [List.forM_eq_forM, List.forM_map]
  have hkeys := nodup_eraseDups (pairs.map (·.1))
  refine (Leads.forM (I := fun done q => p.Replaces q v fun n =>
    if n ∈ done then (p.owned v n).filter (· ∉ pairs.children n) else p.owned v n) ?_ ?_).imp ?_
  · exact (Replaces.refl h).congr fun n => by simp
  · intro done key rest q hl hq
    have hkey : key ∉ done := fun hk => by
      rw [hl] at hkeys
      exact (List.nodup_append.mp hkeys).2.2 key hk key List.mem_cons_self rfl
    have howned : q.owned v key = p.owned v key := by
      rw [hq.owned, if_pos rfl, if_neg hkey]
    have hlt : key < (q.edges.get v).size := by
      have : key ∈ (pairs.map (·.1)).eraseDups := by simp [hl]
      obtain ⟨⟨_, c⟩, he, rfl⟩ := List.mem_map.mp (List.mem_eraseDups.mp this)
      have hc : c ∈ q.owned v _ := howned ▸ (hsub _).subset (EdgeLog.mem_children.mpr he)
      exact EdgeLists.lt_of_mem_owned (Array.mem_def.mpr hc)
    have hsub' : (pairs.children key).Sublist (q.owned v key) := howned ▸ hsub key
    refine (editEdges_succeeds (EdgeEdit.removeOwned_succeeds hlt hsub')).imp ?_
    rintro _ _ ⟨g, rfl, rfl⟩
    refine (hq.setOwned hlt _).congr fun n => ?_
    by_cases hn : n = key
    · subst hn
      have hnd' : (q.owned v n).Nodup := howned ▸ hnd n
      rw [if_pos (by simp), if_pos rfl, EdgeEdit.Removal.run_kept hsub' hnd']
      exact congrArg (List.filter _) howned.symm
    · simp [hn]
  · intro _ q hq
    refine hq.congr fun n => ?_
    split
    · rfl
    · rename_i hn
      have hnil : pairs.children n = [] := by
        refine List.eq_nil_iff_forall_not_mem.mpr fun c hc => hn ?_
        exact List.mem_eraseDups.mpr (List.mem_map.mpr ⟨(n, c), EdgeLog.mem_children.mp hc, rfl⟩)
      exact List.filter_eq_self.mpr (by simp [hnil])

/-- The edges to events that wait for a command buffer to begin. -/
def waitingLog (events : List PendingEvent) : EdgeLog :=
  events.map fun e => (e.allEventOwner, e.node)

/-- The events stand among the children of their owners in their order. -/
structure Waits (p : Pass) (events : List PendingEvent) : Prop where
  lt : ∀ e ∈ events, e.node < p.nodes.size
  aligned : ∀ e ∈ events, e.rgpOwner = e.allEventOwner
  sublist : ∀ v ∈ View.withEvents, ∀ n, ((waitingLog events).children n).Sublist (p.owned v n)
  nodup : ∀ v ∈ View.withEvents, ∀ n, (p.owned v n).Nodup
  once : ∀ v ∈ View.withEvents, ∀ {a b c}, c ∈ p.owned v a → c ∈ p.owned v b → a = b

namespace Waits

variable {events : List PendingEvent}

theorem mem_owned (h : p.Waits events) {v : View} (hv : v ∈ View.withEvents) {e : PendingEvent}
    (he : e ∈ events) : e.node ∈ p.owned v e.allEventOwner :=
  (h.sublist v hv e.allEventOwner).subset
    (EdgeLog.mem_children.mpr (List.mem_map.mpr ⟨e, he, rfl⟩))

theorem adds {new : List Node} (h : p.Waits events) (hq : p.Adds q new .none .none) :
    q.Waits events := by
  have howned (v : View) (n : Nat) : q.owned v n = p.owned v n := by
    rw [hq.owned]
    exact List.append_nil _
  exact {
    lt := fun e he => Nat.lt_of_lt_of_le (h.lt e he) hq.le_size
    aligned := h.aligned
    sublist := fun v hv n => (howned v n).symm ▸ h.sublist v hv n
    nodup := fun v hv n => (howned v n).symm ▸ h.nodup v hv n
    once := fun v hv a b c ha hb => h.once v hv (howned v a ▸ ha) (howned v b ▸ hb) }

/-- Of the children of a node, those that wait have it as their owner. -/
theorem filter_eq (h : p.Waits events) {v : View} (hv : v ∈ View.withEvents) (n : Nat) :
    (p.owned v n).filter (· ∉ (waitingLog events).children n) =
      (p.owned v n).filter (· ∉ events.map (·.node)) := by
  refine List.filter_congr fun c hc => decide_eq_decide.mpr (not_congr ?_)
  rw [EdgeLog.mem_children, waitingLog]
  constructor
  · intro hm
    obtain ⟨e, he, heq⟩ := List.mem_map.mp hm
    exact List.mem_map.mpr ⟨e, he, congrArg Prod.snd heq⟩
  · intro hm
    obtain ⟨e, he, rfl⟩ := List.mem_map.mp hm
    rw [h.once v hv hc (h.mem_owned hv he)]
    exact List.mem_map.mpr ⟨e, he, rfl⟩

end Waits

theorem detachEvents_succeeds {events : List PendingEvent} (h : p.Sized) (hw : p.Waits events) :
    Succeeds (detachEvents events) p fun _ q => q.context = p.context ∧
      p.Regroups q (events.map (·.node)) [] .none .none := by
  have hrgp : (events.map fun e => (e.rgpOwner, e.node)) = waitingLog events :=
    List.map_congr_left fun e he => by rw [hw.aligned e he]
  unfold detachEvents
  rw [hrgp]
  refine (detach_succeeds h (hw.sublist .allEvent (by decide))
    (hw.nodup .allEvent (by decide))).bind ?_
  rintro _ q ⟨hnodes, hsized, hctx, howned, hshared⟩
  have hq (n : Nat) : q.owned .rgp n = p.owned .rgp n := by rw [howned]; simp
  refine (detach_succeeds hsized (fun n => hq n ▸ hw.sublist .rgp (by decide) n)
    (fun n => hq n ▸ hw.nodup .rgp (by decide) n)).imp ?_
  rintro _ r ⟨hnodes', hsized', hctx', howned', hshared'⟩
  refine ⟨hctx'.trans hctx, ⟨by simp [hnodes', hnodes], hsized', fun v n => ?_, fun v n => ?_⟩⟩
  · rw [howned', hq, howned]
    cases v with
    | allEvent => simpa [View.withEvents] using hw.filter_eq (v := .allEvent) (by decide) n
    | rgp => simpa [View.withEvents] using hw.filter_eq (v := .rgp) (by decide) n
    | _ => simp [View.withEvents]
  · simp [hshared', hshared]

/-- The node below which a command buffer is listed that begins now. -/
def bufferOwner (p : Pass) (submit : Nat) : Nat :=
  if p.inScope then (p.scope.map (·.call)).getD submit else submit

theorem Ready.bufferOwner_lt (h : p.Ready submit) : p.bufferOwner submit < p.nodes.size := by
  unfold bufferOwner
  split
  · cases hs : p.scope with
    | none => exact h.submit_lt
    | some s => exact h.stacked.scope s hs
  · exact h.submit_lt

theorem enterScope_leads {α : Type} (submit : Nat) {f : Option Nat → PassM α} {Q : α → Pass → Prop}
    {E : Error → Pass → Prop}
    (hf : ∀ level, level.getD submit = p.bufferOwner submit → Leads (f level) p.scopeEntered Q E) :
    Leads (if p.inScope then openLevel >>= f else pure none >>= f) p Q E := by
  rw [scopeEntered_eq, bufferOwner] at hf
  refine leads_ite.mpr ⟨fun hin => ?_, fun hin => ?_⟩
  · rw [if_pos hin, if_pos hin] at hf
    refine openLevel_succeeds.bind ?_
    rintro _ _ ⟨rfl, rfl⟩
    exact hf _ rfl
  · rw [if_neg hin, if_neg hin] at hf
    exact hf none rfl

/-- The edges of a node, new or about to be, that takes over others. -/
def takeover (parent node : Nat) (moved : List Nat) : Links :=
  .on View.withEvents ((parent, node) :: moved.map (node, ·))

theorem takeover_leads {α : Type} {parent node : Nat} {events : List PendingEvent}
    {f : PUnit → PassM α} {Q : α → Pass → Prop} {E : Error → Pass → Prop} (h : p.Sized)
    (hparent : parent < p.nodes.size) (hnode : node < p.nodes.size)
    (hevents : ∀ e ∈ events, e.node < p.nodes.size)
    (hf : ∀ q, p.Adds q [] (takeover parent node (events.map (·.node))) .none →
      q.context = p.context → Leads (f ⟨⟩) q Q E) :
    Leads (addOwned View.withEvents parent node >>= fun _ =>
      (events.forM fun e => addOwned View.withEvents node e.node) >>= f) p Q E := by
  refine (addOwned_succeeds h (by decide) hparent hnode).bind ?_
  rintro _ q ⟨hq, hctx⟩
  have hsize : q.nodes.size = p.nodes.size := hq.size
  refine (forM_addOwned_succeeds (fun e : PendingEvent => (node, e.node)) hq.sized (by decide)
    fun e he => ⟨hsize ▸ hnode, hsize ▸ hevents e he⟩).bind ?_
  rintro _ r ⟨hr, hctx'⟩
  refine hf r ?_ (hctx'.trans hctx)
  have hall := hq.trans hr
  simp only [Links.none_append, Links.on_append] at hall
  rw [takeover, List.map_map]
  exact hall

/-- The packets that wait for a command buffer are listed below it, and it is opened. -/
theorem takePackets_succeeds {node : Nat} (h : p.Sized) (hnode : node < p.nodes.size)
    (hpackets : ∀ n ∈ p.beginPackets.toList, n < p.nodes.size) :
    Succeeds (do
      let packets := (← get).beginPackets
      modify fun p => { p with beginPackets := #[] }
      packets.forM fun packet => addShared View.withEvents node packet
      openMarker node) p fun _ q =>
        p.Adds q [] .none (.on View.withEvents (p.beginPackets.toList.map (node, ·))) ∧
          q.context = (Pass.opened { p with beginPackets := #[] } node).context := by
  refine leads_bind.mpr (leads_get.mpr (leads_bind.mpr (leads_modify.mpr ?_)))
  rw [array_forM_eq]
  refine (forM_addShared_succeeds (p := { p with beginPackets := #[] })
    (fun packet => (node, packet)) h (by decide) fun n hn => ⟨hnode, hpackets n hn⟩).bind ?_
  rintro _ q ⟨hq, hctx⟩
  refine Leads.intro_at () (q.opened node) rfl ⟨?_, (congrArg (Pass.opened · node) hctx :)⟩
  exact hq.congr rfl rfl rfl rfl

theorem beginCommandBuffer_succeeds (h : p.Ready submit) (hw : p.Waits p.beginEvents.toList)
    (o : Options) (call : CallMarker) :
    Succeeds (beginCommandBuffer o submit call) p fun _ q =>
      p.Regroups q (p.beginEvents.toList.map (·.node))
        [callNode o p.metadataVersion call .diveMetadata]
        (takeover (p.callClosed.bufferOwner submit) p.nodes.size
          (p.beginEvents.toList.map (·.node)))
        (.on View.withEvents (p.beginPackets.toList.map (p.nodes.size, ·))) ∧
      q.context = (p.callClosed.scopeEntered.beginCleared.opened p.nodes.size).context := by
  refine (closeCall_succeeds h).bind ?_
  rintro _ _ rfl
  refine (addCallNode_succeeds h.callClosed.sized o call .diveMetadata).bind ?_
  rintro _ q ⟨rfl, hq, hctx⟩
  have hclosed : p.callClosed.nodes.size = p.nodes.size := rfl
  have hevents : q.beginEvents = p.beginEvents := (congrArg Pass.beginEvents hctx :)
  refine leads_bind.mpr (leads_get.mpr (leads_bind.mpr (leads_modify.mpr ?_)))
  rw [hevents]
  -- The events are taken from their owners.
  have hq' : p.Adds { q with beginEvents := #[] } _ .none .none := hq.congr rfl rfl rfl rfl
  refine (detachEvents_succeeds hq'.sized (hw.adds hq')).bind ?_
  rintro _ r ⟨hctxr, hdetached⟩
  have hr := hq'.regroups hdetached
  have hsize : r.nodes.size = p.nodes.size + 1 := by
    rw [hr.nodes, Nodes.size_append_list]
    rfl
  replace hctx : r.context = Pass.context { p.callClosed with beginEvents := #[] } :=
    hctxr.trans (congrArg (fun c : Pass => { c with beginEvents := #[] }) hctx)
  -- The marker takes them over, below the owner of the command buffer.
  refine leads_bind.mpr (leads_get.mpr (enterScope_leads submit fun level hlevel => ?_))
  have howner : r.bufferOwner submit = p.callClosed.bufferOwner submit :=
    (congrArg (Pass.bufferOwner · submit) hctx :)
  have hlt : p.callClosed.bufferOwner submit < p.nodes.size := h.callClosed.bufferOwner_lt
  have hscope : r.scopeEntered.nodes.size = p.nodes.size + 1 := hsize
  dsimp only
  rw [hlevel, howner]
  refine takeover_leads (p := r.scopeEntered) hr.sized (by omega) (by omega)
    (fun e he => by have := hw.lt e he; omega) fun s hs hctxs => ?_
  have hsizes : s.nodes.size = p.nodes.size + 1 := hs.size.trans hscope
  replace hctx : s.context = Pass.context { p.callClosed.scopeEntered with beginEvents := #[] } :=
    hctxs.trans (congrArg Pass.scopeEntered hctx :)
  have hpackets : s.beginPackets = p.beginPackets := (congrArg Pass.beginPackets hctx :)
  refine (takePackets_succeeds hs.sized (by omega) fun n hn => ?_).imp ?_
  · rw [hpackets] at hn
    have := h.beginPackets_lt n hn
    omega
  rintro _ t ⟨ht, hctxt⟩
  rw [hpackets] at ht
  have hall := (hr.adds (hs.congr (s := r) rfl rfl rfl rfl)).adds ht
  simp only [Links.none_append, Links.append_none] at hall
  refine ⟨⟨hall.nodes, hall.sized, hall.owned, hall.shared⟩, hctxt.trans ?_⟩
  exact (congrArg (fun c : Pass => Pass.opened { c with beginPackets := #[] } p.nodes.size) hctx :)

end CaptureForest.Pass
