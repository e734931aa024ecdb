import CaptureForest.Proofs.Hierarchy.Buffers
import CaptureForest.Proofs.Hierarchy.Mirror
import CaptureForest.Proofs.Hierarchy.Calls
import CaptureForest.Proofs.Hierarchy.Sharing
import CaptureForest.Proofs.Pass.Rests
import CaptureForest.Proofs.Pass.Tops

/-! # What stands at the top

Below the root, the views of events list the submits of a capture in their order, each followed by
the presents that name it; the views of buffers list the submits alone, one of them by engine
(`Hierarchy.ofCapture_tops`). The nodes at the top are added where submits begin and end, and no
step of a walk touches them. -/

namespace CaptureForest

open List (Forall₂)

namespace Nodes

variable {nodes : Nodes} {l : List Nat} {listed : List Node}

/-- The numbers `l` are those of the nodes `listed`, one by one. -/
def Shows (nodes : Nodes) (l : List Nat) (listed : List Node) : Prop :=
  Forall₂ (fun n node => nodes[n]? = some node) l listed

namespace Shows

theorem node {n : Nat} (h : Shows nodes l listed) (hn : n ∈ l) :
    ∃ node ∈ listed, nodes[n]? = some node :=
  exists_of_mem_forall₂ h hn

theorem grow (h : Shows nodes l listed) (new : List Node) : Shows (nodes ++ new) l listed :=
  h.imp fun n node hn => by
    rw [getElem?_append_old (Array.getElem?_eq_some_iff.mp hn).1]
    exact hn

/-- New nodes are shown in the order in which they are added. -/
theorem new (nodes : Nodes) (new : List Node) :
    Shows (nodes ++ new) (List.range' nodes.size new.length) new := by
  refine List.forall₂_iff_get.mpr ⟨List.length_range', fun i hi hi' => ?_⟩
  simp [getElem?_append_new, List.getElem?_eq_getElem hi']

theorem append {l' : List Nat} {listed' : List Node} (h : Shows nodes l listed)
    (h' : Shows nodes l' listed') : Shows nodes (l ++ l') (listed ++ listed') :=
  List.rel_append h h'

/-- A choice of nodes by what they are. -/
theorem filter (h : Shows nodes l listed) (choice : Node → Bool) :
    Shows nodes (l.filter fun n => nodes[n]?.any choice) (listed.filter choice) := by
  refine List.rel_filter (fun n node hn => ?_) h
  simp only [hn, Option.any_some]

/-- More nodes do not change the choice. -/
theorem filter_grow (h : Shows nodes l listed) (choice : Node → Bool) (more : List Node) :
    (l.filter fun n => (nodes ++ more)[n]?.any choice) = l.filter fun n => nodes[n]?.any choice := by
  refine List.filter_congr fun n hn => ?_
  obtain ⟨_, -, hnode⟩ := h.node hn
  rw [getElem?_append_old (Array.getElem?_eq_some_iff.mp hnode).1]

end Shows

end Nodes

/-! ## What is listed -/

namespace Node

def isSubmit (node : Node) : Bool := node.kind = .submit

/-- The node of a submit to an engine. -/
def isSubmitTo (engine : Engine) (node : Node) : Bool :=
  match node.aux with
  | .submit engine' _ => engine' = engine
  | _ => false

end Node

namespace Capture

open Pass

/-- The nodes that a signal adds to the top. -/
def topsOf (c : Capture) : Signal → List Node
  | .begins index s => [submitNode index s]
  | .step .. => []
  | .ends index _ => presentNodes index c.presents.zipIdx

/-- The nodes at the top: all submits, each with the presents that follow it. -/
def tops (c : Capture) : List Node :=
  c.submits.zipIdx.flatMap fun (s, index) =>
    submitNode index s :: presentNodes index c.presents.zipIdx

theorem flatMap_topsOf (c : Capture) : c.signals.flatMap c.topsOf = c.tops := by
  have hof (s : Submit) (index : Nat) : (c.signalsOf s index).flatMap c.topsOf =
      submitNode index s :: presentNodes index c.presents.zipIdx := by
    have hsteps : ((c.stepsOf s index).map (Signal.step index)).flatMap c.topsOf = [] :=
      List.flatMap_eq_nil_iff.mpr fun x hx => by
        obtain ⟨_, -, rfl⟩ := List.mem_map.mp hx
        rfl
    rw [signalsOf, List.cons_append, List.flatMap_cons, List.flatMap_append, hsteps,
      List.flatMap_singleton]
    rfl
  rw [signals, signalsFor, List.flatMap_assoc, tops]
  exact List.flatMap_congr fun _ _ => hof ..

/-- Among the nodes at the top, those that are chosen by what they are for the submit. -/
theorem filter_tops (c : Capture) {f : Node → Bool} {g : Submit → Bool}
    (hsubmit : ∀ index s, f (submitNode index s) = g s)
    (hpresent : ∀ i present, f (presentNode i present) = false) :
    c.tops.filter f =
      (c.submits.zipIdx.filter fun (s, _) => g s).map fun (s, index) => submitNode index s := by
  have hpresents (index : Nat) : (presentNodes index c.presents.zipIdx).filter f = [] := by
    refine List.filter_eq_nil_iff.mpr fun node hnode => ?_
    obtain ⟨i, present, -, -, rfl⟩ := mem_presentNodes.mp hnode
    simp [hpresent]
  rw [tops]
  generalize c.submits.zipIdx = l
  induction l with
  | nil => rfl
  | cons a l ih =>
    obtain ⟨s, index⟩ := a
    rw [List.flatMap_cons, List.filter_append, ih, List.filter_cons, List.filter_cons, hsubmit,
      hpresents]
    split <;> rfl

end Capture

/-! ## How the top grows -/

namespace Pass

variable {o : Options} {c : Capture} {m : Reader} {index submit n : Nat} {t : List Signal}
  {x : Signal} {p q : Pass}

/-- The submits and presents of the signals `t` stand at the top. -/
structure Topped (c : Capture) (t : List Signal) (p : Pass) : Prop where
  presents : p.presents = c.presents
  engines : p.engines = Engine.all.zipIdx 1
  engineNodes : p.owned .engine rootNode = p.engines.map (·.2)
  events : p.nodes.Shows (p.owned .allEvent rootNode) (t.flatMap c.topsOf)
  submits : p.owned .submit rootNode =
    (p.owned .allEvent rootNode).filter fun n => p.nodes[n]?.any Node.isSubmit
  byEngine : ∀ engine n, (engine, n) ∈ p.engines →
    p.nodes[n]? = some (engineNode engine) ∧ p.owned .engine n =
      (p.owned .allEvent rootNode).filter fun n => p.nodes[n]?.any (Node.isSubmitTo engine)

/-- Each engine has a node of its own. -/
theorem lookup_engines : ∀ e ∈ Engine.all.zipIdx 1, ∀ engine : Engine,
    (Engine.all.zipIdx 1).lookup engine = some e.2 ↔ engine = e.1 := by
  intro e he engine
  revert e
  cases engine <;> decide

theorem exists_lookup_engines (engine : Engine) :
    ∃ n, (Engine.all.zipIdx 1).lookup engine = some n := by
  cases engine <;> exact ⟨_, rfl⟩

/-- The engines come behind the root. -/
theorem getElem?_engines : ∀ e ∈ Engine.all.zipIdx 1, e.2 ≠ rootNode ∧
    (topNode :: Engine.all.map engineNode)[e.2]? = some (engineNode e.1) := by
  decide

theorem Started.topped (h : p.Started Engine.all) (hpresents : p.presents = c.presents) :
    Topped c [] p where
  presents := hpresents
  engines := h.engines
  engineNodes := h.lists
  events := by
    rw [h.owned_eq_nil (by simp)]
    exact .nil
  submits := by rw [h.owned_eq_nil (by simp), h.owned_eq_nil (by simp)]; rfl
  byEngine engine n hn := by
    rw [h.engines] at hn
    obtain ⟨hne, hnode⟩ := getElem?_engines _ hn
    rw [← h.nodes, Array.getElem?_toList] at hnode
    rw [h.owned_eq_nil (by simp [hne]), h.owned_eq_nil (by simp)]
    exact ⟨hnode, rfl⟩

/-- The nodes `l` come to the top, which are those that the signal adds. -/
theorem Topped.grow {l : List Nat} {new : List Node} (h : Topped c t p)
    (hnodes : q.nodes = p.nodes ++ new) (hpresents : q.presents = p.presents)
    (hengines : q.engines = p.engines)
    (hengineNodes : q.owned .engine rootNode = p.owned .engine rootNode)
    (hnew : q.nodes.Shows l (c.topsOf x))
    (hevents : q.owned .allEvent rootNode = p.owned .allEvent rootNode ++ l)
    (hsubmits : q.owned .submit rootNode = p.owned .submit rootNode ++
      l.filter fun n => q.nodes[n]?.any Node.isSubmit)
    (hbyEngine : ∀ engine n, (engine, n) ∈ p.engines → q.owned .engine n = p.owned .engine n ++
      l.filter fun n => q.nodes[n]?.any (Node.isSubmitTo engine)) : Topped c (t ++ [x]) q := by
  have hold (choice : Node → Bool) : (p.owned .allEvent rootNode).filter
      (fun n => q.nodes[n]?.any choice) =
        (p.owned .allEvent rootNode).filter fun n => p.nodes[n]?.any choice := by
    rw [hnodes]
    exact h.events.filter_grow choice new
  exact {
    presents := hpresents.trans h.presents
    engines := hengines.trans h.engines
    engineNodes := by rw [hengineNodes, hengines, h.engineNodes]
    events := by
      rw [hevents, List.flatMap_append, List.flatMap_singleton]
      refine .append ?_ hnew
      rw [hnodes]
      exact h.events.grow new
    submits := by rw [hsubmits, hevents, List.filter_append, hold, h.submits]
    byEngine := fun engine n hn => by
      rw [hengines] at hn
      obtain ⟨hnode, howned⟩ := h.byEngine engine n hn
      refine ⟨?_, by rw [hbyEngine engine n hn, hevents, List.filter_append, hold, howned]⟩
      rw [hnodes, Nodes.getElem?_append_old (Array.getElem?_eq_some_iff.mp hnode).1]
      exact hnode }

/-- The kind of an engine's node. -/
theorem Topped.kind? {engine : Engine} (h : Topped c t p) (hn : (engine, n) ∈ p.engines) :
    p.nodes.kind? n = some .engine := by
  obtain ⟨hnode, -⟩ := h.byEngine engine n hn
  rw [Nodes.kind?, hnode]
  rfl

/-- Where a submit begins, it is the last at the top, and the last of its engine. -/
theorem Topped.begins {s : Submit} (h : Topped c t p) (hp : p.Sound)
    (hq : submitStart index s p = .ok () q) : Topped c (t ++ [.begins index s]) q := by
  obtain ⟨node, hnode⟩ := exists_lookup_engines s.engine
  have hlookup : p.engines.lookup s.engine = some node := by rw [h.engines, hnode]
  obtain ⟨-, hadds, hctx⟩ := (submitStart_succeeds hp hlookup index).of_ok hq
  have hroot : p.nodes.kind? rootNode = some .root := hp.arranged.root.mpr rfl
  have hget : q.nodes[p.nodes.size]? = some (submitNode index s) := by
    rw [hadds.nodes]
    exact Nodes.getElem?_append_head
  have hengine : ∀ engine n, (engine, n) ∈ p.engines → (node = n ↔ engine = s.engine) := by
    intro engine n hn
    rw [h.engines] at hn
    have := lookup_engines _ hn s.engine
    rw [hnode, Option.some.injEq] at this
    exact this.trans eq_comm
  have hne : node ≠ rootNode := by
    rintro rfl
    obtain ⟨before, after, heq, -⟩ := List.lookup_eq_some_iff.mp hlookup
    have hpair : (s.engine, rootNode) ∈ p.engines := by simp [heq]
    cases hroot.symm.trans (h.kind? hpair)
  refine h.grow (l := [p.nodes.size]) hadds.nodes (congrArg Pass.presents hctx :)
    (congrArg Pass.engines hctx :) ?_ (.cons hget .nil) ?_ ?_ ?_
  · rw [hadds.owned, submitLinks, Links.append_apply, Links.on_apply, Links.on_apply]
    simp [EdgeLog.children_cons, hne]
  · rw [hadds.owned, submitLinks, Links.append_apply, Links.on_apply, Links.on_apply]
    simp [EdgeLog.children_cons]
  · rw [hadds.owned, submitLinks, Links.append_apply, Links.on_apply, Links.on_apply]
    simp [EdgeLog.children_cons, hget, Node.isSubmit, submitNode]
  · intro engine n hn
    rw [hadds.owned, submitLinks, Links.append_apply, Links.on_apply, Links.on_apply]
    by_cases heq : engine = s.engine
    · simp [EdgeLog.children_cons, hget, Node.isSubmitTo, submitNode, (hengine engine n hn).mpr heq,
        heq]
    · have hother : node ≠ n := fun hnode => heq ((hengine engine n hn).mp hnode)
      simp [EdgeLog.children_cons, hget, Node.isSubmitTo, submitNode, hother, Ne.symm heq]

/-- A step of a walk is not seen at the top. -/
theorem Topped.step {y : Step} (h : Topped c t p) (hp : p.Sound) (hs : p.submit = some submit)
    (hq : Turns o m index submit p y q) : Topped c (t ++ [.step index y]) q := by
  obtain ⟨new, hnodes⟩ := (hq.course hp hs).nodes
  obtain ⟨hpresents, hengines⟩ := hq.presents_engines hp hs
  have hroot : p.nodes.kind? rootNode = some .root := hp.arranged.root.mpr rfl
  have howned (v : View) : q.owned v rootNode = p.owned v rootNode ++ [] := by
    rw [List.append_nil]
    exact hq.owned_eq hp hs hroot nofun
  refine h.grow (l := []) hnodes hpresents hengines (hq.owned_eq hp hs hroot nofun) .nil
    (howned .allEvent) (howned .submit) fun engine n hn => ?_
  rw [hq.owned_eq hp hs (h.kind? hn) nofun]
  exact (List.append_nil _).symm

/-- Where a submit ends, its presents are the last at the top. -/
theorem Topped.ends {s : Submit} (h : Topped c t p) (hp : p.Sound) (hs : p.submit = some submit)
    (hq : submitEnd index p = .ok () q) : Topped c (t ++ [.ends index s]) q := by
  obtain ⟨states, -, hnodes, howned, -, hctx⟩ := (submitEnd_adds hp hs index).of_ok hq
  rw [h.presents] at hnodes howned
  have hroot : p.nodes.kind? rootNode = some .root := hp.arranged.root.mpr rfl
  have hnew : q.nodes.Shows (List.range' (p.nodes.size + states.length)
      (presentNodes index c.presents.zipIdx).length) (presentNodes index c.presents.zipIdx) := by
    rw [hnodes, ← Nodes.append_append_list, ← Nodes.size_append_list]
    exact .new (p.nodes ++ states) _
  have hnone {choice : Node → Bool} (hchoice : ∀ i present, choice (presentNode i present) = false) :
      (List.range' (p.nodes.size + states.length)
        (presentNodes index c.presents.zipIdx).length).filter
          (fun n => q.nodes[n]?.any choice) = [] := by
    refine List.filter_eq_nil_iff.mpr fun n hn => ?_
    obtain ⟨node, hmem, hnode⟩ := hnew.node hn
    obtain ⟨i, present, -, -, rfl⟩ := mem_presentNodes.mp hmem
    simp [hnode, hchoice]
  refine h.grow hnodes (congrArg Pass.presents hctx :) (congrArg Pass.engines hctx :) ?_ hnew ?_ ?_
    fun engine n hn => ?_
  · rw [howned _ _ _ hroot nofun, children_belowRoot, if_neg (by decide), List.append_nil]
  · rw [howned _ _ _ hroot nofun, children_belowRoot, if_pos (by decide)]
  · rw [howned _ _ _ hroot nofun, children_belowRoot, if_neg (by decide), hnone fun _ _ => rfl]
  · rw [howned _ _ _ (h.kind? hn) nofun, children_belowRoot, if_neg (fun hv => absurd hv.1 (by decide)),
      hnone fun _ _ => rfl]

/-- All submits that have begun and all presents of those that have ended stand at the top. -/
theorem After.topped (h : After o c t p) : Topped c t p := by
  refine h.hear Started.topped (fun hsound hq hl => hl.begins hsound hq)
    (fun hm _ hs hturns hl => hl.step hm.sound hs hturns) fun hsound hq hl => ?_
  obtain ⟨submit, hs, -⟩ := openSubmit_ok hq
  exact hl.ends hsound hs hq

end Pass

namespace Capture

open Pass

/-- What stands at the top is a submit, or a present that follows a submit. -/
theorem mem_tops {c : Capture} {node : Node} (h : node ∈ c.tops) :
    ∃ index s, c.submits[index]? = some s ∧ (node = submitNode index s ∨
      ∃ i present, c.presents[i]? = some present ∧ present.submit = index ∧
        node = presentNode i present) := by
  obtain ⟨⟨s, index⟩, hs, hnode⟩ := List.mem_flatMap.mp h
  refine ⟨index, s, List.mk_mem_zipIdx_iff_getElem?.mp hs, ?_⟩
  rcases List.mem_cons.mp hnode with rfl | hnode
  · exact .inl rfl
  · exact .inr (mem_presentNodes.mp hnode)

/-- The nodes of the submits, in order. -/
def submitNodes (c : Capture) : List Node :=
  c.submits.zipIdx.map fun (s, index) => submitNode index s

/-- The nodes of the submits to an engine, in order. -/
def submitNodesOf (c : Capture) (engine : Engine) : List Node :=
  (c.submits.zipIdx.filter fun (s, _) => s.engine = engine).map fun (s, index) => submitNode index s

theorem filter_isSubmit (c : Capture) : c.tops.filter Node.isSubmit = c.submitNodes := by
  rw [c.filter_tops (f := Node.isSubmit) (g := fun _ => true) (fun _ _ => rfl)
    fun _ _ => rfl]
  simp [submitNodes]

theorem filter_isSubmitTo (c : Capture) (engine : Engine) :
    c.tops.filter (Node.isSubmitTo engine) = c.submitNodesOf engine :=
  c.filter_tops (g := fun s => s.engine = engine) (fun _ _ => rfl) fun _ _ => rfl

end Capture

/-! ## The end -/

namespace View

theorem owns_top {v : View} {a b : NodeKind} (h : v.owns a b)
    (hb : v = .allEvent ∧ (b = .submit ∨ b = .present) ∨ b = .engine) : a = .root := by
  revert h
  rcases hb with ⟨rfl, rfl | rfl⟩ | rfl
  · cases a <;> decide
  · cases a <;> decide
  · cases v <;> cases a <;> decide

end View

/-- Submits, presents and engines have an owner, and only the root can be it. -/
theorem Pass.Sound.below_root {p : Pass} {v : View} {n : Nat} {k : NodeKind} (h : p.Sound)
    (hn : p.nodes.kind? n = some k) (hplaces : v.places k)
    (hv : v = .allEvent ∧ (k = .submit ∨ k = .present) ∨ k = .engine) :
    n ∈ p.owned v rootNode := by
  obtain ⟨a, ha⟩ := h.arranged.placed hn hplaces
  obtain ⟨ka, kn, hka, hkn, howns, -⟩ := h.arranged.fits ha
  obtain rfl : k = kn := Option.some.inj (hn.symm.trans hkn)
  obtain rfl := View.owns_top howns hv
  obtain rfl := h.arranged.root.mp hka
  exact ha

namespace Hierarchy

variable {o : Options} {c : Capture} {h : Hierarchy}

/-- The children of a node in a view, in order. -/
def owned (h : Hierarchy) (v : View) (n : Nat) : List Nat := ((h.forest v).children n).toList

/-- What the views list below the root and below the engines. -/
structure Tops (c : Capture) (h : Hierarchy) : Prop where
  events : h.nodes.Shows (h.owned .allEvent rootNode) c.tops
  same : ∀ v ∈ [View.rgp, .vulkanCall, .vulkanEvent],
    h.owned v rootNode = h.owned .allEvent rootNode
  /-- No node stands twice at the top. -/
  ascending : (h.owned .allEvent rootNode).Pairwise (· < ·)
  all : ∀ n, n ∈ h.owned .allEvent rootNode ↔ h.nodes.kind? n ∈ [some .submit, some .present]
  presents : ∀ n, h.nodes.kind? n = some .present → ∃ i present, c.presents[i]? = some present ∧
    present.submit < c.submits.length ∧ h.nodes[n]? = some (Pass.presentNode i present) ∧
      ∀ j, Pass.NamesPlace (Pass.presentNode i present).description j ↔ j = i
  submits : h.nodes.Shows (h.owned .submit rootNode) c.submitNodes ∧
    (h.owned .submit rootNode).Sublist (h.owned .allEvent rootNode)
  engines : ∀ n, h.nodes.kind? n = some .engine → ∃ engine,
    h.nodes[n]? = some (Pass.engineNode engine) ∧
      h.nodes.Shows (h.owned .engine n) (c.submitNodesOf engine) ∧
      (h.owned .engine n).Sublist (h.owned .allEvent rootNode)

/-- What stands at the top is in all views of events. -/
theorem filter_top_eq {nodes : Nodes} {l : List Nat} (h : nodes.Shows l c.tops) :
    (l.filter fun n => !Pass.isNoCall nodes n) = l ∧
      (l.filter fun n => Pass.callClass nodes n ≠ .stateCall) = l := by
  refine ⟨List.filter_eq_self.mpr fun n hn => ?_, List.filter_eq_self.mpr fun n hn => ?_⟩
  all_goals
    obtain ⟨node, hmem, hnode⟩ := h.node hn
    obtain ⟨index, s, -, rfl | ⟨i, present, -, -, rfl⟩⟩ := Capture.mem_tops hmem
    · simp [Pass.isNoCall, Pass.callClass, Nodes.aux?, hnode, Pass.submitNode]
    · simp [Pass.isNoCall, Pass.callClass, Nodes.aux?, hnode, Pass.presentNode]

/-- What stands at the top is a submit or a present. -/
theorem kind?_of_shows {nodes : Nodes} {l : List Nat} {n : Nat} (h : nodes.Shows l c.tops)
    (hn : n ∈ l) : nodes.kind? n ∈ [some .submit, some .present] := by
  obtain ⟨node, hmem, hnode⟩ := h.node hn
  rw [Nodes.kind?, hnode]
  obtain ⟨index, s, -, rfl | ⟨i, present, -, -, rfl⟩⟩ := Capture.mem_tops hmem
  · simp [Pass.submitNode]
  · simp [Pass.presentNode]

/-- The root lists, in all views of events, each submit of the capture and behind it the presents
that name it, in the order of the capture and described by their places in it. It lists the submits
in the view of submits, and each engine lists its own. A present that names no submit has no
node. -/
theorem ofCapture_tops (hb : ofCapture o c = .ok h) : h.Tops c := by
  obtain ⟨q, hq, hnodes, hbakes⟩ := ofCapture_after hb
  have htopped := hq.topped
  have hsound := hq.sound
  have howned {v : View} (hv : v ∈ View.withPackets) (n : Nat) : h.owned v n = q.owned v n := by
    rw [owned, (hbakes v).children, Pass.allEdges_get hv]
    rfl
  have hevents : h.nodes.Shows (h.owned .allEvent rootNode) c.tops := by
    rw [howned (by decide), hnodes, ← c.flatMap_topsOf]
    exact htopped.events
  have hmem (n : Nat) : n ∈ h.owned .allEvent rootNode ↔
      h.nodes.kind? n ∈ [some .submit, some .present] := by
    refine ⟨kind?_of_shows hevents, fun hn => ?_⟩
    rw [hnodes] at hn
    rw [howned (by decide)]
    rcases List.mem_pair.mp hn with hn | hn
    · exact hsound.below_root hn (by decide) (.inl ⟨rfl, .inl rfl⟩)
    · exact hsound.below_root hn (by decide) (.inl ⟨rfl, .inr rfl⟩)
  have hcall : h.owned .vulkanCall rootNode = h.owned .allEvent rootNode := by
    rw [owned, (hbakes .vulkanCall).children, hq.reached.nested.owned_vulkanCall hsound,
      ← howned (by decide), ← hnodes]
    exact (filter_top_eq hevents).1
  have hevent : h.owned .vulkanEvent rootNode = h.owned .allEvent rootNode := by
    rw [owned, (hbakes .vulkanEvent).children,
      hq.reached.nested.owned_vulkanEvent hsound hq.reached.typed, ← (hbakes .vulkanCall).children,
      ← owned, hcall, ← hnodes]
    exact (filter_top_eq hevents).2
  have hchoice (choice : Node → Bool) : ((q.owned .allEvent rootNode).filter
      fun n => q.nodes[n]?.any choice) =
        (h.owned .allEvent rootNode).filter fun n => h.nodes[n]?.any choice := by
    rw [howned (by decide), hnodes]
  exact {
    events := hevents
    same := fun v hv => by
      simp only [List.mem_cons, List.not_mem_nil, or_false] at hv
      rcases hv with rfl | rfl | rfl
      · rw [howned (by decide), howned (by decide)]
        exact hq.reached.mirrored.owned rootNode
      · exact hcall
      · exact hevent
    ascending := by
      rw [howned (by decide)]
      exact hq.reached.ascending.owned .allEvent (by decide) rootNode
    all := hmem
    presents := fun n hn => by
      obtain ⟨node, htop, hnode⟩ := hevents.node ((hmem n).mpr (by simp [hn]))
      rw [Nodes.kind?, hnode] at hn
      obtain ⟨index, s, hs, rfl | ⟨i, present, hi, rfl, rfl⟩⟩ := Capture.mem_tops htop
      · cases hn
      · exact ⟨i, present, hi, (List.getElem?_eq_some_iff.mp hs).1, hnode,
          Pass.namesPlace_presentNode i present⟩
    submits := by
      rw [howned (v := .submit) (by decide), htopped.submits, hchoice, ← c.filter_isSubmit]
      exact ⟨hevents.filter _, List.filter_sublist⟩
    engines := fun n hn => by
      rw [hnodes] at hn
      have hengine := hsound.below_root (v := .engine) hn (by decide) (.inr rfl)
      rw [htopped.engineNodes] at hengine
      obtain ⟨⟨engine, _⟩, hpair, rfl⟩ := List.mem_map.mp hengine
      obtain ⟨hnode, hchildren⟩ := htopped.byEngine engine _ hpair
      refine ⟨engine, hnodes ▸ hnode, ?_⟩
      rw [howned (v := .engine) (by decide), hchildren, hchoice, ← c.filter_isSubmitTo]
      exact ⟨hevents.filter _, List.filter_sublist⟩ }

/-- A dummy submit and another one, with three presents. One of them names no submit, and one has a
surface. -/
theorem ofCapture_tops_presents :
    let surface : Surface := {
      fullScreen := true, engine := .universal, queue := .universal, address := 4096, size := 64
      format := 44, colorSpace := 0 }
    let c : Capture := {
      submits := [
        { engine := .timer, queue := .timer, dummy := true, ibs := [] },
        { engine := .universal, queue := .universal, ibs := [{ va := 0, size := 1 }] }]
      presents := [{ submit := 1, surface := some surface }, { submit := 2 }, { submit := 0 }]
      memory := .flat (Words.toBytes #[Header.ofOpcode Opcode.drawAuto 0]) }
    ∃ h, ofCapture {} c = .ok h ∧ h.owned .allEvent rootNode = [6, 7, 8, 12] ∧
      h.nodes[7]? = some { kind := .present, description := "Present: 2" } ∧
      h.nodes[12]?.map (·.description) = some ("Present: 0, FullScreen: 1, " ++
        "Engine: Universal, Queue: Universal, SurfaceAddr: 0x1000, SurfaceSize: 64, " ++
        "VkFormat: VK_FORMAT_B8G8R8A8_UNORM, VkColorSpaceKHR: VK_COLOR_SPACE_SRGB_NONLINEAR_KHR") ∧
      h.Tops c := by
  intro surface c
  have hbuild : ∃ h, ofCapture {} c = .ok h ∧ h.owned .allEvent rootNode = [6, 7, 8, 12] ∧
      h.nodes[7]? = some { kind := .present, description := "Present: 2" } ∧
      h.nodes[12]?.map (·.description) = some ("Present: 0, FullScreen: 1, " ++
        "Engine: Universal, Queue: Universal, SurfaceAddr: 0x1000, SurfaceSize: 64, " ++
        "VkFormat: VK_FORMAT_B8G8R8A8_UNORM, VkColorSpaceKHR: VK_COLOR_SPACE_SRGB_NONLINEAR_KHR") := by
    decide +kernel
  obtain ⟨h, hb, howned, hplain, hsurface⟩ := hbuild
  exact ⟨h, hb, howned, hplain, hsurface, ofCapture_tops hb⟩

end Hierarchy

end CaptureForest
