import CaptureForest.Proofs.Hierarchy.Order
import CaptureForest.Proofs.Hierarchy.Sessions
import CaptureForest.Proofs.View.DepthFirst
import CaptureForest.Proofs.View.PackedBake

/-! # Walks of views

The packed form of a view is made by calls that all succeed, and its root has no owner. So every walk
of a view is one of the tree below the root, depth first (`Hierarchy.walks_depthFirst`). -/

namespace CaptureForest.Hierarchy

variable {h : Hierarchy} {c : Capture} {o : Options} {engine queue : Engine} {words : Array UInt32}

/-- A hierarchy that some build has come to. -/
def IsBuilt (h : Hierarchy) : Prop :=
  (∃ o c, ofCapture o c = .ok h) ∨ ∃ o engine queue words, ofStream o engine queue words = .ok h

-- As above, with whole builds.
attribute [local irreducible] Pass.build Pass.buildStream

theorem isDecodable_of_ofStream (hb : ofStream o engine queue words = .ok h) :
    engine.isDecodable := by
  by_contra hengine
  have hrejects : Pass.buildStream o engine queue words {} = .error (.unsupportedSubmit engine) {} :=
    Pass.buildStream_unsupported o hengine queue words {}
  unfold ofStream EStateM.run at hb
  rw [hrejects] at hb
  cases hb

theorem IsBuilt.finishes (hb : h.IsBuilt) : ∃ c, Pass.Finishes c h := by
  obtain ⟨o, c, hb⟩ | ⟨o, engine, queue, words, hb⟩ := hb
  · exact ⟨c, (ofCapture_spec o c).1 h hb⟩
  · exact ⟨.ofStream engine queue words,
      (ofStream_spec o (isDecodable_of_ofStream hb) queue words).1 h hb⟩

/-- The edge lists that become a view can be packed, too. The packed form stores the view, which has a
root that nobody owns. -/
theorem packed_of_finishes (hf : Pass.Finishes c h) (v : View) :
    ∃ g s, Forest.ofEdgeLists? g = .ok (h.forest v) ∧ PackedForest.ofEdgeLists? g = .ok s ∧
      s.Stores (h.forest v) ∧ (h.forest v).Rooted ∧ 0 < s.size := by
  have hforest := isForest_of_finishes hf v
  obtain ⟨q, hq, hnodes, hbakes⟩ := hf
  have hwf := (hq.sound.wf v).1
  obtain ⟨s, hs⟩ := PackedForest.exists_ofEdgeLists?_iff.mpr hwf
  obtain ⟨f, hf, hstores, hf'⟩ := PackedForest.of_ofEdgeLists? hs
  obtain rfl : f = h.forest v := hf'.unique (hbakes v)
  refine ⟨_, s, hf, hs, hstores, hforest.rooted (hbakes v), ?_⟩
  rw [← hstores.answers.size, hforest.size, numNodes, hnodes]
  exact Nodes.kind?_lt (hq.sound.arranged.root.mpr rfl)

/-- The walk of a packed forest ends, and it is the recursive walk of the tree below the root, if calls
have made the forest that all succeeded, there is a root, and nobody owns the root. A forest that goes
through the same calls is walked alike. Every view of every build is such a forest. -/
theorem walks_depthFirst :
    (∀ (k : Nat) (calls : List ForestCall) (s : PackedForest),
      (calls.forM ForestCall.onPacked).run (PackedForest.ofNodes k) = .ok () s →
      0 < s.size → s.parent? rootNode = none →
      ∃ f, (calls.forM ForestCall.onForest).run (Forest.ofNodes k) = .ok () f ∧ s.Mirrors f ∧
        s.Walks f.preorder.toList) ∧
    ∀ h : Hierarchy, h.IsBuilt → ∀ v : View, ∃ g s,
      Forest.ofEdgeLists? g = .ok (h.forest v) ∧ PackedForest.ofEdgeLists? g = .ok s ∧
      (g.calls.forM ForestCall.onPacked).run (PackedForest.ofNodes g.size) = .ok () s ∧
      0 < s.size ∧ s.parent? rootNode = none ∧ s.Mirrors (h.forest v) ∧
      s.Walks (h.forest v).preorder.toList := by
  refine ⟨fun k calls s hs hpos hroot => ?_, fun h hb v => ?_⟩
  · obtain ⟨f, hf, hstores, hgiven⟩ := PackedForest.Stores.of_calls hs
    have hrooted : f.Rooted := ⟨hgiven.linked _ _, hstores.owner?_eq_none_iff.mpr hroot⟩
    exact ⟨f, hf, hstores.mirrors, hstores.walks hrooted hpos⟩
  · obtain ⟨c, hf⟩ := hb.finishes
    obtain ⟨g, s, hg, hs, hstores, hrooted, hpos⟩ := packed_of_finishes hf v
    exact ⟨g, s, hg, hs, PackedForest.ofEdgeLists?_eq_ok_iff.mp hs, hpos,
      hstores.owner?_eq_none_iff.mp hrooted.root, hstores.mirrors, hstores.walks hrooted hpos⟩

/-- Beside the tree, the nodes 5 and 6 own each other. In the view of engines the first engine has a
submit with one buffer. -/
theorem walks_depthFirst_beside_cycle :
    let calls : List ForestCall := [.addChildren 2 #[4, 1], .addChildren 0 #[3, 2],
      .addShared 4 #[0], .addChildren 5 #[6], .addChildren 6 #[5]]
    let c : Capture := {
      submits := [{ engine := .universal, queue := .universal, ibs := [{ va := 0, size := 1 }] }]
      memory := .flat (Words.toBytes #[Header.ofOpcode Opcode.nop 0]) }
    (∃ s, (calls.forM ForestCall.onPacked).run (PackedForest.ofNodes 7) = .ok () s ∧ 0 < s.size ∧
      s.parent? rootNode = none ∧ s.Walks [0, 3, 2, 4, 1]) ∧
    ∃ h, ofCapture {} c = .ok h ∧ ∃ s : PackedForest, s.Mirrors (h.forest .engine) ∧
      s.Walks [0, 1, 6, 7, 2, 3, 4, 5] := by
  intro calls c
  constructor
  · let s : PackedForest := {
      ownedLists.spans := #[⟨2, 2⟩, ⟨0, 0⟩, ⟨0, 2⟩, ⟨0, 0⟩, ⟨0, 0⟩, ⟨4, 1⟩, ⟨5, 1⟩]
      ownedLists.data := #[4, 1, 3, 2, 6, 5]
      sharedLists.spans := #[⟨0, 0⟩, ⟨0, 0⟩, ⟨0, 0⟩, ⟨0, 0⟩, ⟨0, 1⟩, ⟨0, 0⟩, ⟨0, 0⟩]
      sharedLists.data := #[0]
      parents := #[none, some 2, some 0, some 0, some 2, some 6, some 5]
      ranks := #[none, some 1, some 1, some 0, some 0, some 0, some 0] }
    have hs : (calls.forM ForestCall.onPacked).run (PackedForest.ofNodes 7) = .ok () s := rfl
    have hf : Leads (calls.forM ForestCall.onForest) (Forest.ofNodes 7)
        (fun _ f => f.preorder.toList = [0, 3, 2, 4, 1]) fun _ _ => False := by decide
    have hpos : 0 < s.size := by decide
    obtain ⟨f, hrun, -, hwalks⟩ := walks_depthFirst.1 7 calls s hs hpos rfl
    exact ⟨s, hs, hpos, rfl, hf.of_ok hrun ▸ hwalks⟩
  · have hc : ∃ h, ofCapture {} c = .ok h ∧
        (h.forest .engine).preorder.toList = [0, 1, 6, 7, 2, 3, 4, 5] := by
      decide +kernel
    obtain ⟨h, hb, hpreorder⟩ := hc
    obtain ⟨g, s, -, -, -, -, -, hmirrors, hwalks⟩ := walks_depthFirst.2 h (.inl ⟨{}, c, hb⟩) .engine
    exact ⟨h, hb, s, hmirrors, hpreorder ▸ hwalks⟩

end CaptureForest.Hierarchy
