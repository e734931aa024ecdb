import CaptureForest.Proofs.Hierarchy.Progress

/-! # The views of a hierarchy are forests

In every view of a finished hierarchy each node has at most one owner, the root has none, and no
node is below itself. What a view lists can be reached from the root, and registers and fields hang
from their packets. -/

namespace CaptureForest.Hierarchy

open Relation

/-- A node owns another in a view. -/
def Owns (h : Hierarchy) (v : View) (n c : Nat) : Prop := c ∈ (h.forest v).children n

/-- The owned edges of a view make a forest of all nodes. -/
structure IsForest (h : Hierarchy) (v : View) : Prop where
  size : (h.forest v).size = h.numNodes
  inside : ∀ {n c}, h.Owns v n c → n < h.numNodes ∧ c < h.numNodes
  nodup : ∀ n, ((h.forest v).children n).toList.Nodup
  once : ∀ {a b c}, h.Owns v a c → h.Owns v b c → a = b
  parent : ∀ {n c}, (h.forest v).parent? c = some n ↔ h.Owns v n c
  root : (h.forest v).parent? rootNode = none
  acyclic : ∀ n, ¬TransGen (h.Owns v) n n

variable {h : Hierarchy} {c : Capture} {o : Options}

theorem parent?_iff {f : Forest} {g : EdgeLists} (hf : f.Bakes g) {n c : Nat} :
    f.parent? c = some n ↔ c ∈ f.children n := by
  rw [Forest.parent?, Option.map_eq_some_iff, hf.children]
  constructor
  · rintro ⟨owner, howner, rfl⟩
    exact Array.mem_of_getElem? (hf.owner.mp howner)
  · intro hc
    obtain ⟨i, hi⟩ := Array.getElem?_of_mem hc
    exact ⟨⟨n, i⟩, hf.owner.mpr hi, rfl⟩

/-- The views that list packets keep the edges of the pass. -/
theorem owns_iff {q : Pass} (hbakes : ∀ v, (h.forest v).Bakes (q.allEdges.get v)) {v : View}
    (hv : v ∈ View.withPackets) {n c : Nat} : h.Owns v n c ↔ c ∈ q.owned v n := by
  rw [Owns, (hbakes v).children, Pass.allEdges_get hv]
  exact Array.mem_def

theorem isForest_of_finishes (hf : Pass.Finishes c h) (v : View) : h.IsForest v := by
  obtain ⟨q, hq, hnodes, hbakes⟩ := hf
  have hb := hbakes v
  obtain ⟨hwf, hsize⟩ := hq.sound.wf v
  have howns {n c : Nat} : h.Owns v n c ↔ c ∈ (q.allEdges.get v).owned n := by
    rw [Owns, hb.children]
  have hsource {n c : Nat} (hc : h.Owns v n c) : c ∈ q.owned (Pass.source v) n :=
    Pass.mem_owned_of_allEdges (howns.mp hc)
  exact {
    size := by rw [hb.size, hsize, numNodes, hnodes]
    inside := fun {n c} hc => by
      obtain ⟨a, b, ha, hb, -⟩ := hq.sound.arranged.fits (hsource hc)
      rw [numNodes, hnodes]
      exact ⟨Nodes.kind?_lt ha, Nodes.kind?_lt hb⟩
    nodup := fun n => by rw [hb.children]; exact hwf.nodup n
    once := fun ha hb => hq.sound.arranged.once (hsource ha) (hsource hb)
    parent := parent?_iff hb
    root := by
      refine Option.eq_none_iff_forall_ne_some.mpr fun n hn => ?_
      obtain ⟨a, b, -, hb', hab, -⟩ := hq.sound.arranged.fits (hsource ((parent?_iff hb).mp hn))
      rw [hq.sound.arranged.root.mpr rfl] at hb'
      cases hb'
      exact View.not_owns_root hab
    acyclic := fun n hn =>
      hq.sound.arranged.acyclic (Pass.source v) n (TransGen.mono (fun _ _ => hsource) _ _ hn) }

/-- Each view of a finished hierarchy is a forest of all nodes. No node gets lost: the views of
events list the submits with their markers, events and states, and the presents; those of buffers
list the buffers. Nobody owns a packet, and registers and fields have an owner wherever packets are
listed. -/
theorem ofCapture_isForest (hb : ofCapture o c = .ok h) :
    (∀ v, h.IsForest v) ∧
      (∀ v ∈ View.withEvents, ∀ n k, h.nodes.kind? n = some k →
        k ∈ [.submit, .marker, .event, .sync, .postambleState, .present] →
        ReflTransGen (h.Owns v) rootNode n) ∧
      (∀ n k, h.nodes.kind? n = some k → k ∈ [.engine, .submit, .ib] →
        ReflTransGen (h.Owns .engine) rootNode n) ∧
      (∀ n k, h.nodes.kind? n = some k → k ∈ [.submit, .ib] →
        ReflTransGen (h.Owns .submit) rootNode n) ∧
      (∀ v n, h.nodes.kind? n = some .packet → (h.forest v).parent? n = none) ∧
      ∀ v ∈ View.withPackets, ∀ n k, h.nodes.kind? n = some k → k ∈ [.reg, .field] →
        ∃ p, (h.forest v).parent? n = some p ∧ ∀ p', h.Owns v p' n → p' = p := by
  have hf := (ofCapture_spec o c).1 h hb
  have hforest := isForest_of_finishes hf
  obtain ⟨q, hq, hnodes, hbakes⟩ := hf
  have harranged := hq.sound.arranged
  rw [hnodes]
  have howns {v : View} (hv : v ∈ View.withPackets) {n c : Nat} (hc : c ∈ q.owned v n) :
      h.Owns v n c := (owns_iff hbakes hv).mpr hc
  have hreach {v : View} (hv : v ∈ View.withPackets) {n : Nat} {k : NodeKind}
      (hk : q.nodes.kind? n = some k) (hplaces : v.places k) (hreg : k ≠ .reg)
      (hfield : k ≠ .field) : ReflTransGen (h.Owns v) rootNode n :=
    ReflTransGen.mono (fun _ _ => howns hv) _ _ (harranged.reachable hk hplaces hreg hfield)
  refine ⟨hforest, fun v hv n k hk hmem => ?_, fun n k hk hmem => ?_, fun n k hk hmem => ?_,
    fun v n hk => ?_, fun v hv n k hk hmem => ?_⟩
  · have hplaces : v ∈ View.withPackets ∧ v.places k ∧ k ≠ .reg ∧ k ≠ .field := by
      clear hk
      revert v k
      decide
    exact hreach hplaces.1 hk hplaces.2.1 hplaces.2.2.1 hplaces.2.2.2
  · have hplaces : View.places .engine k ∧ k ≠ .reg ∧ k ≠ .field := by
      clear hk
      revert k
      decide
    exact hreach (by decide) hk hplaces.1 hplaces.2.1 hplaces.2.2
  · have hplaces : View.places .submit k ∧ k ≠ .reg ∧ k ≠ .field := by
      clear hk
      revert k
      decide
    exact hreach (by decide) hk hplaces.1 hplaces.2.1 hplaces.2.2
  · refine Option.eq_none_iff_forall_ne_some.mpr fun p hp => ?_
    have hc := (hforest v).parent.mp hp
    rw [Owns, (hbakes v).children] at hc
    obtain ⟨a, b, -, hb', hab, -⟩ := harranged.fits (Pass.mem_owned_of_allEdges hc)
    rw [hk] at hb'
    cases hb'
    exact View.not_owns_packet hab
  · have hplaces : v.places k := by
      clear hk
      revert v k
      decide
    obtain ⟨p, hp⟩ := harranged.placed hk hplaces
    have hc := howns hv hp
    exact ⟨p, (hforest v).parent.mpr hc, fun p' hp' => (hforest v).once hp' hc⟩

/-- A draw and a synchronisation in a label, which go over to a command buffer that begins behind
them, and a register, a packet without an event behind it and a present. -/
theorem ofCapture_isForest_takeover :
    let c : Capture := {
      submits := [{ engine := .universal, queue := .universal, ibs := [{ va := 0, size := 9 }] }]
      presents := [{ submit := 0 }]
      memory := .flat (Words.toBytes #[Header.ofOpcode Opcode.nop 1,
        CallMarker.word .beginDebugUtilsLabel, Header.ofOpcode Opcode.drawAuto 0,
        Header.ofOpcode Opcode.waitForIdle 0, Header.ofOpcode Opcode.nop 1,
        CallMarker.word .beginCommandBuffer, Header.ofRegisters 0x8871 1, 5,
        Header.ofOpcode Opcode.nop 0]) }
    ∃ h, ofCapture {} c = .ok h ∧ (h.forest .allEvent).children 15 = #[11, 13] ∧
      (∀ v, h.IsForest v) ∧
      (∀ n ∈ [6, 9, 11, 13, 15, 22, 23], ReflTransGen (h.Owns .allEvent) rootNode n) ∧
      ReflTransGen (h.Owns .engine) rootNode 7 ∧ ReflTransGen (h.Owns .submit) rootNode 7 ∧
      (∀ v, (h.forest v).parent? 16 = none) ∧ ∃ p, (h.forest .rgp).parent? 17 = some p := by
  intro c
  have hbuild : ∃ h, ofCapture {} c = .ok h ∧ (h.forest .allEvent).children 15 = #[11, 13] ∧
      (∀ n ∈ [6, 9, 11, 13, 15, 22, 23], ∃ k ∈ [NodeKind.submit, .marker, .event, .sync,
        .postambleState, .present], h.nodes.kind? n = some k) ∧
      h.nodes.kind? 7 = some .ib ∧ h.nodes.kind? 16 = some .packet ∧
      h.nodes.kind? 17 = some .reg := by decide +kernel
  obtain ⟨h, hb, hchildren, hkinds, hib, hpacket, hreg⟩ := hbuild
  obtain ⟨hforest, hevents, hengine, hsubmit, hpackets, hregs⟩ := ofCapture_isForest hb
  obtain ⟨p, hp, -⟩ := hregs .rgp (by decide) 17 .reg hreg (by decide)
  refine ⟨h, hb, hchildren, hforest, fun n hn => ?_, hengine 7 .ib hib (by decide),
    hsubmit 7 .ib hib (by decide), fun v => hpackets v 16 hpacket, p, hp⟩
  obtain ⟨k, hk, hkind⟩ := hkinds n hn
  exact hevents .allEvent (by decide) n k hkind hk

end CaptureForest.Hierarchy
