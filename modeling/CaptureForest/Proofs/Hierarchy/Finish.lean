import CaptureForest.Proofs.Pass.Sound
import CaptureForest.Proofs.View.Laws
import CaptureForest.Hierarchy.Build

/-! # The two ends of a build

A build starts with a sound pass that has a node for each of its engines, and a sound pass can
always be finished: its edges, and those of the call views, can become forests. -/

namespace CaptureForest

/-! ## Finishing views -/

theorem Views.mapM_ok {α β ε : Type} {f : α → Except ε β} (vs : Views α) {P : View → β → Prop}
    (h : ∀ v, ∃ b, f (vs.get v) = .ok b ∧ P v b) :
    ∃ bs, vs.mapM f = .ok bs ∧ ∀ v, P v (bs.get v) := by
  choose b hb hP using h
  refine ⟨⟨b .engine, b .submit, b .allEvent, b .vulkanCall, b .vulkanEvent, b .rgp⟩, ?_, ?_⟩
  · have hengine : f vs.engine = _ := hb .engine
    have hsubmit : f vs.submit = _ := hb .submit
    have hallEvent : f vs.allEvent = _ := hb .allEvent
    have hvulkanCall : f vs.vulkanCall = _ := hb .vulkanCall
    have hvulkanEvent : f vs.vulkanEvent = _ := hb .vulkanEvent
    have hrgp : f vs.rgp = _ := hb .rgp
    rw [mapM, hengine, hsubmit, hallEvent, hvulkanCall, hvulkanEvent, hrgp]
    rfl
  · intro v
    cases v <;> exact hP _

namespace Pass

variable {p q : Pass}

/-- The view that the edges of a view were made from. -/
def source : View → View
  | .vulkanCall | .vulkanEvent => .allEvent
  | v => v

theorem mem_owned_of_allEdges {v : View} {n c : Nat} (h : c ∈ (p.allEdges.get v).owned n) :
    c ∈ p.owned (source v) n := by
  cases v with
  | vulkanCall => exact EdgeLists.owned_without_sublist.subset (Array.mem_def.mp h)
  | vulkanEvent =>
    have hcall := EdgeLists.owned_merged_sublist.subset (Array.mem_def.mp h)
    exact EdgeLists.owned_without_sublist.subset hcall
  | engine | submit | allEvent | rgp => exact Array.mem_def.mp h

theorem allEdges_get {v : View} (hv : v ∈ View.withPackets) :
    p.allEdges.get v = p.edges.get v := by
  cases v with
  | vulkanCall | vulkanEvent => exact absurd hv (by decide)
  | engine | submit | allEvent | rgp => rfl

theorem Sound.wf (h : p.Sound) (v : View) :
    (p.allEdges.get v).WF ∧ (p.allEdges.get v).size = p.nodes.size := by
  have hwf (w : View) := h.arranged.wf h.sized w
  cases v with
  | vulkanCall =>
    exact ⟨(hwf .allEvent).without _, EdgeLists.size_without.trans (h.sized .allEvent)⟩
  | vulkanEvent =>
    refine ⟨((hwf .allEvent).without _).merged _, ?_⟩
    obtain ⟨hsize, -⟩ := EdgeLists.merged_spec (p.allEdges.get .vulkanCall) (callClass p.nodes)
    exact hsize.trans (EdgeLists.size_without.trans (h.sized .allEvent))
  | engine => exact ⟨hwf .engine, h.sized .engine⟩
  | submit => exact ⟨hwf .submit, h.sized .submit⟩
  | allEvent => exact ⟨hwf .allEvent, h.sized .allEvent⟩
  | rgp => exact ⟨hwf .rgp, h.sized .rgp⟩

/-- The hierarchy has all that the pass has built. -/
structure Becomes (p : Pass) (h : Hierarchy) : Prop where
  nodes : h.nodes = p.nodes
  forests : ∀ v, (h.forest v).Bakes (p.allEdges.get v)
  events : h.events = p.events
  metadataVersion : h.metadataVersion = p.metadataVersion
  hasCallMarker : h.hasCallMarker = p.hasCallMarker

/-- A sound pass can be finished. -/
theorem finish_becomes (h : p.Sound) : Succeeds finish p fun hier _ => p.Becomes hier := by
  obtain ⟨forests, hforests, hbakes⟩ :=
    Views.mapM_ok p.allEdges (P := fun v (f : Forest) => f.Bakes (p.allEdges.get v)) fun v =>
      (h.wf v).1.bakes
  unfold finish
  refine leads_bind.mpr (leads_get.mpr (leads_bind.mpr (leads_modify.mpr ?_)))
  rw [hforests]
  exact ⟨rfl, hbakes, rfl, rfl, rfl⟩

/-! ## Starting afresh -/

/-- The node at which all views begin. -/
def topNode : Node := { kind := .root, description := "" }

/-- The node of an engine. -/
def engineNode (engine : Engine) : Node := { kind := .engine, description := engine.name }

theorem topNode_sound (h : Adds {} q [topNode] .none .none) (hctx : q.context = context {}) :
    q.Sound := by
  have hnodes : q.nodes = #[topNode] := h.nodes
  have hkind {n : Nat} {k : NodeKind} (hk : q.nodes.kind? n = some k) :
      n = rootNode ∧ k = .root := by
    have hlt := Nodes.kind?_lt hk
    rw [hnodes] at hlt hk
    obtain rfl : n = 0 := Nat.lt_one_iff.mp hlt
    exact ⟨rfl, (Option.some.inj hk).symm⟩
  have howned (v : View) (n : Nat) : q.owned v n = [] := by
    rw [h.owned]
    simp [owned]
  have hshared (v : View) (n : Nat) : q.shared v n = [] := by
    rw [h.shared]
    simp [shared]
  refine .of_context (c := {}) ?_ hctx
  exact {
    sized := h.sized
    arranged := {
      root := ⟨fun hk => (hkind hk).1, fun hn => by subst hn; exact h.kind?_new 0⟩
      fits := fun {v n c} (hc : c ∈ q.owned v n) => by rw [howned] at hc; cases hc
      nodup := fun v n => by
        show (q.owned v n).Nodup
        rw [howned]
        exact List.nodup_nil
      once := fun {v a b c} (hc : c ∈ q.owned v a) => by rw [howned] at hc; cases hc
      placed := fun {v c k} hk hplaces => by
        obtain ⟨a, -, ha⟩ := List.any_eq_true.mp hplaces
        rw [(hkind hk).2] at ha
        exact absurd ha View.not_owns_root
      shares := fun {v n c} (hc : c ∈ q.shared v n) => by rw [hshared] at hc; cases hc }
    engines := fun _ _ h => by cases h
    submit := fun _ h => by cases h
    buffers := fun _ h => by cases h
    stacked := {
      markers := fun _ h => by cases h
      aligned := rfl
      openCall := fun _ h => by cases h
      scope := fun _ h => by cases h }
    packets := fun _ h => by cases h
    beginPackets := fun _ h => by cases h
    events := fun _ h => by cases h
    eventOwners := fun _ h => by cases h
    eventOrder := fun v _ n => List.nil_sublist _ }

/-- A pass that has its engines and nothing else. It may know of presents. -/
structure Started (engines : List Engine) (p : Pass) : Prop where
  sound : p.Sound
  nodes : p.nodes.toList = topNode :: engines.map engineNode
  engines : p.engines = engines.zipIdx 1
  lists : p.owned .engine rootNode = p.engines.map (·.2)
  context : ∃ engines presents version, p.context = { Pass.context {} with
    engines, presents, metadataVersion := version }

theorem Started.node_cases {engines : List Engine} {n : Nat} {node : Node} (h : p.Started engines)
    (hn : p.nodes[n]? = some node) : node = topNode ∨ ∃ engine, node = engineNode engine := by
  have hmem := Array.mem_def.mp (Array.mem_of_getElem? hn)
  rw [h.nodes] at hmem
  rcases List.mem_cons.mp hmem with rfl | hmem
  · exact .inl rfl
  · obtain ⟨engine, -, rfl⟩ := List.mem_map.mp hmem
    exact .inr ⟨engine, rfl⟩

theorem Started.kinds {engines : List Engine} {n : Nat} {k : NodeKind} (h : p.Started engines)
    (hk : p.nodes.kind? n = some k) : k = .root ∨ k = .engine := by
  obtain ⟨node, hn, rfl⟩ := Option.map_eq_some_iff.mp hk
  rcases h.node_cases hn with rfl | ⟨engine, rfl⟩
  · exact .inl rfl
  · exact .inr rfl

theorem topNode_started (h : Adds {} q [topNode] .none .none) (hctx : q.context = context {}) :
    q.Started [] where
  sound := topNode_sound h hctx
  engines := by
    have hengines : q.engines = [] := (congrArg Pass.engines hctx :)
    rw [hengines]
    rfl
  nodes := by rw [h.nodes]; rfl
  lists := by
    have hengines : q.engines = [] := (congrArg Pass.engines hctx :)
    rw [h.owned, hengines]
    simp [owned]
  context := ⟨_, _, _, hctx⟩

/-- An engine gets a node. -/
theorem Started.engine {done : List Engine} {engine : Engine} (h : p.Started done)
    (hq : p.Adds q [engineNode engine] (.on [.engine] [(rootNode, p.nodes.size)]) .none)
    (hctx : q.context = p.context) :
    Started (done ++ [engine]) { q with engines := q.engines ++ [(engine, p.nodes.size)] } := by
  have hroot : p.nodes.kind? rootNode = some .root := h.sound.arranged.root.mpr rfl
  have hb : q.Sound := .of_context (h.sound.grownTo hq
    (.single_on (k := .engine) hroot rfl (by decide) (by decide) (by decide)) nofun) hctx
  have hengines : q.engines = p.engines := (congrArg Pass.engines hctx :)
  have hsize : p.nodes.size = 1 + done.length := by
    rw [← Array.length_toList, h.nodes, List.length_cons, List.length_map, Nat.add_comm]
  exact {
    sound := { hb with
      stacked := { hb.stacked with }
      engines := fun e n hn => by
        rcases List.mem_append.mp hn with hn | hn
        · exact hb.engines e n hn
        · cases List.mem_singleton.mp hn
          exact hq.kind?_new 0 }
    engines := by rw [hengines, h.engines, hsize, List.zipIdx_append]; rfl
    nodes := by
      show q.nodes.toList = _
      rw [hq.nodes, Array.toList_appendList, h.nodes, List.map_append]
      rfl
    lists := by
      show q.owned .engine rootNode = _
      rw [hq.owned, h.lists, List.map_append, hengines]
      rfl
    context := by
      obtain ⟨_, presents, version, hcontext⟩ := h.context
      exact ⟨_, presents, version, (congrArg (fun c : Pass => { c with
        engines := q.engines ++ [(engine, p.nodes.size)] }) (hctx.trans hcontext) :)⟩ }

/-- Apart from the engines and the presents, a pass that has just started remembers nothing. -/
theorem Started.remembers {engines : List Engine} {α : Type} (h : p.Started engines) (f : Pass → α)
    (hf : ∀ c : Pass, f c = f c.context)
    (hf' : ∀ (c : Pass) engines presents version,
      f { c with engines, presents, metadataVersion := version } = f c) : f p = f {} := by
  obtain ⟨_, _, _, hcontext⟩ := h.context
  rw [hf, hcontext, hf', ← hf]

theorem Started.context_eq {engines : List Engine} (h : p.Started engines) :
    p.context = { Pass.context {} with
      engines := p.engines
      presents := p.presents
      metadataVersion := p.metadataVersion } := by
  obtain ⟨engines, presents, version, hcontext⟩ := h.context
  obtain rfl : p.engines = engines := (congrArg Pass.engines hcontext :)
  obtain rfl : p.presents = presents := (congrArg Pass.presents hcontext :)
  obtain rfl : p.metadataVersion = version := (congrArg Pass.metadataVersion hcontext :)
  exact hcontext

/-- A pass that has just started is told of presents. -/
theorem Started.presents {engines : List Engine} (h : p.Started engines) (presents : List Present)
    (version : UInt32) : Started engines { p with presents, metadataVersion := version } where
  sound := { h.sound with stacked := { h.sound.stacked with } }
  engines := h.engines
  nodes := h.nodes
  lists := h.lists
  context := by
    obtain ⟨engines, _, _, hcontext⟩ := h.context
    exact ⟨engines, presents, version,
      (congrArg (fun c : Pass => { c with presents, metadataVersion := version }) hcontext :)⟩

/-- Nothing of a pass outlasts a reset. -/
theorem reset_eq (p : Pass) : p.reset = {} := rfl

/-- A build starts with its engines and nothing else. -/
theorem start_succeeds (engines : List Engine) : Succeeds (start engines) p fun _ q =>
    q.Started engines ∧ q.presents = [] ∧ q.metadataVersion = 0 := by
  have hempty : Sized {} := fun v => by simp
  unfold start
  refine leads_bind.mpr (leads_modify.mpr ?_)
  rw [reset_eq]
  refine (addNode_succeeds hempty topNode).bind ?_
  rintro _ q ⟨rfl, hq, hctx⟩
  refine Leads.forM
    (I := fun done q => Started done q ∧ q.presents = [] ∧ q.metadataVersion = 0)
    ⟨topNode_started hq hctx, (congrArg Pass.presents hctx :),
      (congrArg Pass.metadataVersion hctx :)⟩ ?_
  rintro done engine rest q - ⟨h, hpresents, hversion⟩
  have hroot : q.nodes.kind? rootNode = some .root := h.sound.arranged.root.mpr rfl
  refine (addNode_succeeds h.sound.sized (engineNode engine)).bind ?_
  rintro _ r ⟨rfl, hr, hctx⟩
  refine (addOwned_succeeds hr.sized (by decide) (Nodes.kind?_lt (hr.kind? hroot))
    (Nodes.kind?_lt (hr.kind?_new 0))).bind ?_
  rintro _ s ⟨hs, hctx'⟩
  have hcontext := hctx'.trans hctx
  exact leads_modify.mpr ⟨h.engine (hr.trans hs) hcontext,
    (congrArg Pass.presents hcontext :).trans hpresents,
    (congrArg Pass.metadataVersion hcontext :).trans hversion⟩

end Pass

end CaptureForest
