import CaptureForest.Proofs.Pass.Arranged
import CaptureForest.Proofs.Pass.Change

/-! # Sound passes

A pass is `Sound` if its nodes are arranged and what it remembers of them is true: markers are
markers, the open call is the innermost of them, buffers are buffers, and the events that wait for
a command buffer stand where they were attached. All that happens in a pass keeps it sound. -/

namespace CaptureForest.Pass

variable {p q r : Pass} {new : List Node} {owned shared : Links} {submit : Nat}

/-- What a pass knows of its nodes is true of them. -/
structure Sound (p : Pass) : Prop where
  sized : p.Sized
  arranged : p.IsArranged
  engines : ∀ e n, (e, n) ∈ p.engines → p.nodes.kind? n = some .engine
  submit : ∀ s, p.submit = some s → p.nodes.kind? s = some .submit
  buffers : ∀ r ∈ p.drawIbs ++ p.constantIbs, ∀ n ∈ r.toList, p.nodes.kind? n = some .ib
  stacked : p.Stacked (p.nodes.kind? · = some .marker)
  packets : ∀ n ∈ p.packets.toList, p.nodes.kind? n = some .packet
  beginPackets : ∀ n ∈ p.beginPackets.toList, p.nodes.kind? n = some .packet
  events : ∀ e ∈ p.beginEvents.toList, ∃ k, p.nodes.kind? e.node = some k ∧ k.endsRun
  eventOwners : ∀ e ∈ p.beginEvents.toList, e.rgpOwner = e.allEventOwner
  eventOrder : ∀ v ∈ View.withEvents, ∀ n,
    ((waitingLog p.beginEvents.toList).children n).Sublist (p.owned v n)

/-- What `p` remembers, over the nodes and edges of `q`. -/
def grownTo (p q : Pass) : Pass := { p with nodes := q.nodes, edges := q.edges }

theorem scopeEnded_grownTo : p.scopeEnded.grownTo q = (p.grownTo q).scopeEnded := rfl

theorem scopeEntered_grownTo : p.scopeEntered.grownTo q = (p.grownTo q).scopeEntered := rfl

theorem callClosed_grownTo : p.callClosed.grownTo q = (p.grownTo q).callClosed := rfl

theorem beginCleared_scopeEntered : p.scopeEntered.beginCleared = p.beginCleared.scopeEntered := rfl

theorem beginCleared_callClosed : p.callClosed.beginCleared = p.beginCleared.callClosed := rfl

theorem opened_grownTo {m : Nat} : (p.opened m).grownTo q = (p.grownTo q).opened m := rfl

theorem scopeBegun_grownTo {c : Command} {m : Nat} :
    (p.scopeBegun c m).grownTo q = (p.grownTo q).scopeBegun c m := rfl

/-- What is true of the memory of `c` over the nodes and edges of `q` is true of `q`, if both
remember the same. -/
theorem of_grownTo {P : Pass → Prop} {c : Pass} (h : P (c.grownTo q))
    (hctx : q.context = c.context) : P q := by
  have heq : c.grownTo q = q := by
    cases q
    cases c
    simp_all [context, grownTo]
  exact heq ▸ h

namespace Sound

/-- Attached nodes keep a pass sound that remembers the same as before. -/
theorem grownTo (h : p.Sound) (hq : p.Adds q new owned shared)
    (hnew : Attached p.nodes new owned)
    (hshared : ∀ {v n c}, (n, c) ∈ shared v → q.nodes.kind? c = some .packet) :
    (p.grownTo q).Sound where
  sized := hq.sized
  arranged := h.arranged.adds (q := p.grownTo q) (hq.congr rfl rfl rfl rfl) hnew hshared
  engines e n hn := hq.kind? (h.engines e n hn)
  submit s hs := hq.kind? (h.submit s hs)
  buffers r hr n hn := hq.kind? (h.buffers r hr n hn)
  stacked := { h.stacked.congr (q := p) (fun _ hm => hq.kind? hm) rfl with }
  packets n hn := hq.kind? (h.packets n hn)
  beginPackets n hn := hq.kind? (h.beginPackets n hn)
  events e he := by
    obtain ⟨k, hk, hends⟩ := h.events e he
    exact ⟨k, hq.kind? hk, hends⟩
  eventOwners := h.eventOwners
  eventOrder v hv n := by
    have howned : (p.grownTo q).owned v n = p.owned v n ++ (owned v).children n := hq.owned v n
    rw [howned]
    exact (h.eventOrder v hv n).trans (List.sublist_append_left _ _)

theorem ready (h : p.Sound) (hs : p.submit = some submit) : p.Ready submit where
  sized := h.sized
  submit_lt := Nodes.kind?_lt (h.submit submit hs)
  stacked := h.stacked.congr (fun _ hm => Nodes.kind?_lt hm) rfl
  packets_lt n hn := Nodes.kind?_lt (h.packets n hn)
  beginPackets_lt n hn := Nodes.kind?_lt (h.beginPackets n hn)

theorem waits (h : p.Sound) : p.Waits p.beginEvents.toList where
  lt e he := by
    obtain ⟨_, hk, -⟩ := h.events e he
    exact Nodes.kind?_lt hk
  aligned := h.eventOwners
  sublist := h.eventOrder
  nodup v _ n := h.arranged.nodup v n
  once _ _ _ _ _ ha hb := h.arranged.once ha hb

/-- Nodes are attached to the submit or to a marker. -/
theorem innermost (h : p.Sound) (hs : p.submit = some submit) :
    ∃ k, p.nodes.kind? (p.innermost submit) = some k ∧ (k = .submit ∨ k = .marker) := by
  unfold Pass.innermost
  cases hm : p.markers with
  | nil => exact ⟨.submit, h.submit submit hs, .inl rfl⟩
  | cons m ms => exact ⟨.marker, h.stacked.markers m (by simp [hm]), .inr rfl⟩

/-- Command buffers are listed below the submit or a marker. -/
theorem bufferOwner (h : p.Sound) (hs : p.submit = some submit) :
    ∃ k, p.nodes.kind? (p.bufferOwner submit) = some k ∧ (k = .submit ∨ k = .marker) := by
  unfold Pass.bufferOwner
  split
  · cases hscope : p.scope with
    | none => exact ⟨.submit, h.submit submit hs, .inl rfl⟩
    | some s => exact ⟨.marker, h.stacked.scope s hscope, .inr rfl⟩
  · exact ⟨.submit, h.submit submit hs, .inl rfl⟩

/-! ## What is remembered -/

theorem beginCleared (h : p.Sound) : p.beginCleared.Sound :=
  { h with
    stacked := { h.stacked with }
    beginPackets := by simp [Pass.beginCleared]
    events := by simp [Pass.beginCleared]
    eventOwners := by simp [Pass.beginCleared]
    eventOrder := by simp [Pass.beginCleared, waitingLog] }

theorem callClosed (h : p.Sound) : p.callClosed.Sound :=
  { h with stacked := h.stacked.callClosed }

theorem opened {m : Nat} (h : p.Sound) (hm : p.nodes.kind? m = some .marker) :
    (p.opened m).Sound :=
  { h with stacked := h.stacked.opened hm }

theorem scopeEntered (h : p.Sound) (hc : p.openCall = none) : p.scopeEntered.Sound :=
  { h with stacked := h.stacked.scopeEntered hc }

theorem scopeEnded (h : p.Sound) : p.scopeEnded.Sound :=
  { h with stacked := h.stacked.scopeEnded }

theorem scopeBegun {m : Nat} (h : p.Sound) (hm : p.nodes.kind? m = some .marker) (c : Command) :
    (p.scopeBegun c m).Sound :=
  { h with stacked := h.stacked.scopeBegun c fun _ => hm }

theorem of_context {c : Pass} (h : (c.grownTo q).Sound) (hctx : q.context = c.context) :
    q.Sound :=
  of_grownTo h hctx

/-- A marker is attached. -/
theorem attachMarker {node : Node} (h : p.Sound) (hs : p.submit = some submit)
    (hk : node.kind = .marker)
    (hq : p.Adds q [node] (.on View.withEvents [(p.innermost submit, p.nodes.size)]) .none) :
    (p.grownTo q).Sound ∧ q.nodes.kind? p.nodes.size = some .marker := by
  obtain ⟨k, hinner, hor⟩ := h.innermost hs
  refine ⟨h.grownTo hq (Attached.single_on hinner hk (by decide) (by decide) ?_) (by simp), ?_⟩
  · exact fun v hv => View.owns_marker hv hor
  · rw [← hk]; exact hq.kind?_new 0

theorem nodup_waiting (h : p.Sound) : (p.beginEvents.toList.map (·.node)).Nodup := by
  have hw := h.waits
  generalize p.beginEvents.toList = events at hw ⊢
  induction events with
  | nil => exact List.nodup_nil
  | cons e events ih =>
    rw [List.map_cons, List.nodup_cons]
    refine ⟨fun hm => ?_, ih ?_⟩
    · obtain ⟨e', he', hnode⟩ := List.mem_map.mp hm
      have hmem' := hw.mem_owned (v := .allEvent) (by decide) (List.mem_cons_of_mem _ he')
      have howner : e'.allEventOwner = e.allEventOwner :=
        hw.once .allEvent (by decide) (hnode ▸ hmem') (hw.mem_owned (by decide) List.mem_cons_self)
      have hnd := (hw.nodup .allEvent (by decide) e.allEventOwner).sublist
        (hw.sublist .allEvent (by decide) e.allEventOwner)
      rw [waitingLog, List.map_cons, EdgeLog.children_cons, if_pos rfl, List.nodup_cons] at hnd
      refine hnd.1 (EdgeLog.mem_children.mpr (List.mem_map.mpr ⟨e', he', ?_⟩))
      rw [howner, hnode]
    · exact {
        lt := fun e he => hw.lt e (List.mem_cons_of_mem _ he)
        aligned := fun e he => hw.aligned e (List.mem_cons_of_mem _ he)
        sublist := fun v hv n => by
          refine List.Sublist.trans ?_ (hw.sublist v hv n)
          exact ((List.sublist_cons_self _ _).filter _).map _
        nodup := hw.nodup
        once := hw.once }

end Sound

/-! ## What stays -/

/-- Where a pass is, and what it was started with. -/
structure Site where
  engines : List (Engine × Nat)
  submit : Option Nat
  drawIbs : IbStack
  constantIbs : IbStack
  onConstantEngine : Bool
  presents : List Present
  metadataVersion : UInt32

/-- The site of a pass. -/
def site (p : Pass) : Site :=
  { p with }

@[simp]
theorem site_context : p.context.site = p.site := rfl

@[simp]
theorem site_callClosed : p.callClosed.site = p.site := rfl

@[simp]
theorem site_opened {m : Nat} : (p.opened m).site = p.site := rfl

@[simp]
theorem site_scopeEntered : p.scopeEntered.site = p.site := rfl

@[simp]
theorem site_scopeEnded : p.scopeEnded.site = p.site := rfl

@[simp]
theorem site_scopeBegun {c : Command} {m : Nat} : (p.scopeBegun c m).site = p.site := rfl

@[simp]
theorem site_beginCleared : p.beginCleared.site = p.site := rfl

/-- Between `p` and `q` there are only new markers and events. The views of buffers have no new
edges, and the submits share nothing new. -/
structure Quiet (p q : Pass) : Prop where
  nodes : ∃ new : List Node, q.nodes = p.nodes ++ new ∧
    ∀ node ∈ new, node.kind = .event ∨ node.kind = .sync ∨ node.kind = .marker
  owned : ∀ v ∈ View.withBuffers, ∀ n, q.owned v n = p.owned v n
  shared : ∀ v ∈ View.withBuffers, ∀ n, q.shared v n = p.shared v n
  submits : ∀ v n, p.nodes.kind? n = some .submit → q.shared v n = p.shared v n
  site : q.site = p.site

namespace Quiet

theorem refl (p : Pass) : p.Quiet p where
  nodes := ⟨[], Array.appendList_nil.symm, by simp⟩
  owned _ _ _ := rfl
  shared _ _ _ := rfl
  submits _ _ _ := rfl
  site := rfl

theorem trans (h : p.Quiet q) (h' : q.Quiet r) : p.Quiet r := by
  obtain ⟨new, hnew, hkinds⟩ := h.nodes
  obtain ⟨more, hmore, hkinds'⟩ := h'.nodes
  exact {
    nodes := ⟨new ++ more, by rw [hmore, hnew, Nodes.append_append_list],
      fun node hn => (List.mem_append.mp hn).elim (hkinds node) (hkinds' node)⟩
    owned := fun v hv n => (h'.owned v hv n).trans (h.owned v hv n)
    shared := fun v hv n => (h'.shared v hv n).trans (h.shared v hv n)
    submits := fun v n hn =>
      (h'.submits v n (by rw [hnew]; exact Nodes.kind?_append hn)).trans (h.submits v n hn)
    site := h'.site.trans h.site }

end Quiet

theorem not_mem_withEvents {v : View} (hv : v ∈ View.withBuffers) : v ∉ View.withEvents := by
  revert v
  decide

theorem Regroups.quiet {moved : List Nat} {log more : EdgeLog}
    (hq : p.Regroups q moved new (.on View.withEvents log) (.on View.withEvents more))
    (hnew : ∀ node ∈ new, node.kind = .event ∨ node.kind = .sync ∨ node.kind = .marker)
    (hmore : ∀ e ∈ more, p.nodes.kind? e.1 ≠ some .submit) (hsite : q.site = p.site) :
    p.Quiet q where
  nodes := ⟨new, hq.nodes, hnew⟩
  owned v hv n := by
    rw [hq.owned, Links.on_apply, if_neg (not_mem_withEvents hv), if_neg (not_mem_withEvents hv)]
    exact List.append_nil _
  shared v hv n := by
    rw [hq.shared, Links.on_apply, if_neg (not_mem_withEvents hv)]
    exact List.append_nil _
  submits v n hn := by
    have : ((Links.on View.withEvents more) v).children n = [] := by
      refine List.eq_nil_iff_forall_not_mem.mpr fun c hc => ?_
      exact hmore _ (Links.mem_on.mp (EdgeLog.mem_children.mp hc)).2 hn
    rw [hq.shared, this, List.append_nil]
  site := hsite

theorem Adds.quiet {log more : EdgeLog}
    (hq : p.Adds q new (.on View.withEvents log) (.on View.withEvents more))
    (hnew : ∀ node ∈ new, node.kind = .event ∨ node.kind = .sync ∨ node.kind = .marker)
    (hmore : ∀ e ∈ more, p.nodes.kind? e.1 ≠ some .submit) (hsite : q.site = p.site) :
    p.Quiet q :=
  hq.regroups_nil.quiet hnew hmore hsite

theorem Adds.quiet_marker {log : EdgeLog} {node : Node}
    (hq : p.Adds q [node] (.on View.withEvents log) .none) (hk : node.kind = .marker)
    (hsite : q.site = p.site) : p.Quiet q := by
  rw [← Links.on_nil View.withEvents] at hq
  exact hq.quiet (by simp [hk]) (by simp) hsite

/-! ## Recorded calls -/

/-- A command buffer that begins keeps a pass sound. -/
theorem Sound.beginsBuffer {node : Node} (h : p.Sound) (hs : p.submit = some submit)
    (hnode : node.kind = .marker)
    (hq : p.Regroups q (p.beginEvents.toList.map (·.node)) [node]
      (takeover (p.callClosed.bufferOwner submit) p.nodes.size
        (p.beginEvents.toList.map (·.node)))
      (.on View.withEvents (p.beginPackets.toList.map (p.nodes.size, ·))))
    (hctx : q.context = (p.callClosed.scopeEntered.beginCleared.opened p.nodes.size).context) :
    q.Sound := by
  have hmarker : q.nodes.kind? p.nodes.size = some .marker := hnode ▸ hq.kind?_head
  obtain ⟨k, hparent, hor⟩ := h.callClosed.bufferOwner hs
  have harranged : q.IsArranged := by
    refine h.arranged.regroups hq hnode hparent hor h.nodup_waiting (fun c hc => ?_)
      fun {v n c} hc => ?_
    · obtain ⟨e, he, rfl⟩ := List.mem_map.mp hc
      exact h.events e he
    · obtain ⟨c, hc, heq⟩ := List.mem_map.mp (Links.mem_on.mp hc).2
      cases heq
      exact hq.kind? (h.beginPackets c hc)
  have hb : (p.beginCleared.grownTo q).Sound := {
    sized := hq.sized
    arranged := harranged
    engines := fun e n hn => hq.kind? (h.engines e n hn)
    submit := fun s hs => hq.kind? (h.submit s hs)
    buffers := fun r hr n hn => hq.kind? (h.buffers r hr n hn)
    stacked := { h.stacked.congr (q := p) (fun _ hm => hq.kind? hm) rfl with }
    packets := fun n hn => hq.kind? (h.packets n hn)
    beginPackets := by simp [Pass.grownTo, Pass.beginCleared]
    events := by simp [Pass.grownTo, Pass.beginCleared]
    eventOwners := by simp [Pass.grownTo, Pass.beginCleared]
    eventOrder := by simp [Pass.grownTo, Pass.beginCleared, waitingLog] }
  refine .of_context ?_ hctx
  rw [beginCleared_scopeEntered, beginCleared_callClosed, opened_grownTo, scopeEntered_grownTo,
    callClosed_grownTo]
  exact (hb.callClosed.scopeEntered rfl).opened hmarker

/-- A recorded call keeps a pass sound, and is not seen in the views of buffers. -/
theorem Obeys.sound {o : Options} {call : CallMarker} (hq : Obeys o submit call p q) (h : p.Sound)
    (hs : p.submit = some submit) : q.Sound ∧ p.Quiet q := by
  cases hq with
  | beginsBuffer _ hq hctx =>
    refine ⟨h.beginsBuffer hs rfl hq hctx, hq.quiet (by simp [callNode]) (fun e he hk => ?_)
      (by simpa using congrArg site hctx)⟩
    obtain ⟨n, -, rfl⟩ := List.mem_map.mp he
    exact Nat.lt_irrefl _ (Nodes.kind?_lt hk)
  | endsBuffer _ hq hctx =>
    obtain ⟨hb, -⟩ := h.callClosed.attachMarker hs rfl (hq.congr rfl rfl rfl rfl)
    refine ⟨?_, hq.quiet_marker rfl ?_⟩
    · split at hctx
      · exact .of_context (c := p.callClosed.levelClosed)
          { hb with stacked := hb.stacked.levelClosed rfl } hctx
      · exact .of_context hb hctx
    · split at hctx
      · exact (congrArg site hctx :)
      · exact (congrArg site hctx :)
  | beginsLabel _ hq hctx =>
    obtain ⟨hb, hk⟩ := h.callClosed.attachMarker hs rfl (hq.congr rfl rfl rfl rfl)
    refine ⟨?_, hq.quiet_marker rfl (congrArg site hctx :)⟩
    exact .of_context (c := { p.callClosed.pushed p.nodes.size with numLabels := p.numLabels + 1 })
      { hb with stacked := { hb.stacked.pushed hk rfl with } } hctx
  | endsLabel =>
    refine ⟨{ h with stacked := h.stacked.callClosed.labelClosed rfl }, ?_⟩
    exact { Quiet.refl p with }
  | insertsLabel _ hq hctx =>
    obtain ⟨hb, -⟩ := h.callClosed.attachMarker hs rfl (hq.congr rfl rfl rfl rfl)
    refine ⟨?_, hq.quiet_marker rfl (congrArg site hctx :)⟩
    exact .of_context (c := { p.callClosed with numLabels := p.numLabels + 1 })
      { hb with stacked := { hb.stacked with } } hctx
  | opensCall _ hq hctx =>
    obtain ⟨hb, hk⟩ := h.callClosed.attachMarker hs rfl (hq.congr rfl rfl rfl rfl)
    refine ⟨?_, hq.quiet_marker rfl (by simpa using congrArg site hctx)⟩
    refine .of_context ?_ hctx
    rw [scopeBegun_grownTo, opened_grownTo, scopeEnded_grownTo]
    exact (hb.scopeEnded.opened hk).scopeBegun hk _

/-! ## Changes one after the other -/

/-- From `p` to `q` there are only changes, each of a sound pass. -/
def Course : Pass → Pass → Prop := Relation.ReflTransGen fun p q => p.Sound ∧ p.Change q

namespace Course

theorem refl (p : Pass) : p.Course p := Relation.ReflTransGen.refl

theorem trans (h : p.Course q) (h' : q.Course r) : p.Course r := Relation.ReflTransGen.trans h h'

theorem change (h : p.Course q) (hq : q.Sound) (hc : q.Change r) : p.Course r :=
  Relation.ReflTransGen.tail h ⟨hq, hc⟩

theorem single (h : p.Sound) (hc : p.Change q) : p.Course q := (refl p).change h hc

/-- What all changes of sound passes preserve. -/
theorem induct {I : Pass → Prop} (h : p.Course q) (hp : I p)
    (step : ∀ {q r : Pass}, q.Sound → q.Change r → I q → I r) : I q := by
  induction h with
  | refl => exact hp
  | tail _ hc ih => exact step hc.1 hc.2 ih

end Course

end CaptureForest.Pass
