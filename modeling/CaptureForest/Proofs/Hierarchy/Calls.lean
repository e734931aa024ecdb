import CaptureForest.Proofs.Hierarchy.Runs
import CaptureForest.Proofs.Pass.Nested
import CaptureForest.Proofs.Pass.Typed
import CaptureForest.Proofs.Vulkan.CallMarker

/-! # The views of calls

Two views list the recorded calls alone. They are made from the view with all events by leaving out
nodes with everything below them. Nothing else gets lost, as below a node that is left out there
are only nodes that are left out too: the markers that own other markers are labels and calls that
execute command buffers (`Pass.Nested`), and both views list these. -/

namespace CaptureForest

namespace Nodes

variable {nodes : Nodes} {n : Nat}

/-- Events, synchronisations, states and barriers. -/
def IsNoCall (nodes : Nodes) (n : Nat) : Prop :=
  nodes.kind? n ∈ [some .event, some .sync, some .postambleState] ∨
    nodes.kind? n = some .marker ∧ nodes.markerKind? n = some .barrier

/-- The marker of a call that does no work of its own. -/
def IsStateCall (nodes : Nodes) (n : Nat) : Prop :=
  ∃ id, nodes.aux? n = some (.marker .diveMetadata id) ∧
    ∀ command : Command, command.id.toNat = id → ¬command.isEvent

theorem isNoCall_iff : Pass.isNoCall nodes n ↔ nodes.IsNoCall n := by
  unfold Pass.isNoCall IsNoCall markerKind? aux? kind?
  cases nodes[n]? with
  | none => simp
  | some node => cases hk : node.kind <;> simp [hk]

theorem isNoCall_of_endsRun {k : NodeKind} (hk : nodes.kind? n = some k) (h : k.endsRun) :
    nodes.IsNoCall n := by
  refine .inl ?_
  rw [hk]
  revert h
  cases k <;> decide

theorem callClass_eq_stateCall : Pass.callClass nodes n = .stateCall ↔ nodes.IsStateCall n := by
  unfold Pass.callClass IsStateCall
  split
  · rename_i id haux
    have hevent : (id < 256 && (Command.ofId? id.toUInt8).any Command.isEvent) = true ↔
        ∃ command : Command, command.id.toNat = id ∧ command.isEvent := by
      simp only [Bool.and_eq_true, decide_eq_true_eq, Option.any_eq_true]
      constructor
      · rintro ⟨hlt, command, hcommand, hwork⟩
        exact ⟨command, Command.ofId?_toUInt8.mp ⟨hlt, hcommand⟩, hwork⟩
      · rintro ⟨command, hid, hwork⟩
        obtain ⟨hlt, hcommand⟩ := Command.ofId?_toUInt8.mpr hid
        exact ⟨hlt, command, hcommand, hwork⟩
    rw [haux]
    split
    · rename_i hwork
      obtain ⟨command, hid, hwork⟩ := hevent.mp hwork
      refine ⟨nofun, ?_⟩
      rintro ⟨_, heq, hnot⟩
      cases heq
      exact absurd hwork (hnot command hid)
    · rename_i hnot
      exact ⟨fun _ => ⟨id, rfl, fun command hid hwork => hnot (hevent.mpr ⟨command, hid, hwork⟩)⟩,
        fun _ => rfl⟩
  · rename_i hnot
    refine ⟨nofun, ?_⟩
    rintro ⟨id, haux, -⟩
    exact absurd haux (hnot id)

/-- To bind a pipeline is no work, to draw is. -/
example :
    let nodes : Nodes := #[Command.bindPipeline, .draw].map fun command =>
      { kind := .marker, description := "", aux := .marker .diveMetadata command.id.toNat }
    Pass.callClass nodes 0 = .stateCall ∧ Pass.callClass nodes 1 = .eventCall := by
  decide +kernel

/-- What is no call has no part in the merge of calls. -/
theorem IsNoCall.callClass_eq (h : nodes.IsNoCall n) (ht : nodes.Typed) :
    Pass.callClass nodes n = .noCall := by
  unfold Pass.callClass
  split
  · rename_i id haux
    have hmarker : nodes.markerKind? n = some .diveMetadata := by rw [markerKind?, haux]; rfl
    rcases h with hk | ⟨-, hk⟩
    · rw [ht.kind?_marker haux] at hk
      simp at hk
    · rw [hmarker] at hk
      cases hk
  · rfl

end Nodes

namespace Pass

variable {p : Pass} {engines : List Engine} {n m : Nat}

theorem Started.nested (h : p.Started engines) : p.Nested where
  stacked := by
    have hmarkers : p.markers = [] := h.remembers Pass.markers (fun _ => rfl) fun _ _ _ _ => rfl
    have hscope : p.scope = none := h.remembers Pass.scope (fun _ => rfl) fun _ _ _ _ => rfl
    exact {
      markers := by simp [callClosed, hmarkers]
      aligned := h.sound.stacked.callClosed.aligned
      openCall := nofun
      scope := fun s hs => by
        rw [show p.callClosed.scope = none from hscope] at hs
        cases hs }
  owned {v n c} _ _ hn := by rcases h.kinds hn with hk | hk <;> cases hk

theorem Started.typed (h : p.Started engines) : p.nodes.Typed := fun n node hn => by
  rcases h.node_cases hn with rfl | ⟨engine, rfl⟩ <;> rfl

theorem Reached.nested (h : p.Reached) : p.Nested :=
  h.induct Started.nested fun hq hc => hc.nested hq

theorem Reached.typed (h : p.Reached) : p.nodes.Typed :=
  h.induct Started.typed fun _ hc => hc.typed

/-- Below what is no call there are no calls. -/
theorem Nested.isNoCall_of_owned (h : p.Nested) (hp : p.Sound) (hn : p.nodes.IsNoCall n)
    (hm : m ∈ p.owned .allEvent n) : p.nodes.IsNoCall m := by
  obtain ⟨a, b, ha, hb, hab, -⟩ := hp.arranged.fits hm
  rcases hn with hk | ⟨hk, hbarrier⟩
  · have htakes : a.takesRun := by
      rw [ha] at hk
      revert hk
      cases a <;> decide
    exact absurd hab (View.not_owns_of_takesRun htakes)
  · rcases h.owned (v := .allEvent) (by decide) hm hk with hnests | ⟨k, hk, hends⟩
    · rcases hnests with hlabel | haux
      · rw [hbarrier] at hlabel
        cases hlabel
      · rw [Nodes.markerKind?, haux] at hbarrier
        cases hbarrier
    · exact Nodes.isNoCall_of_endsRun hk hends

/-- Below a call without work of its own there are no calls. -/
theorem Nested.isNoCall_of_stateCall (h : p.Nested) (ht : p.nodes.Typed)
    (hn : p.nodes.IsStateCall n) (hm : m ∈ p.owned .allEvent n) : p.nodes.IsNoCall m := by
  obtain ⟨id, haux, hnot⟩ := hn
  rcases h.owned (v := .allEvent) (by decide) hm (ht.kind?_marker haux) with
    hnests | ⟨k, hk, hends⟩
  · rcases hnests with hlabel | haux'
    · rw [Nodes.markerKind?, haux] at hlabel
      cases hlabel
    · rw [haux] at haux'
      cases haux'
      exact absurd rfl (hnot .executeCommands rfl)
  · exact Nodes.isNoCall_of_endsRun hk hends

/-- The view of calls leaves out what is no call, and nothing else. -/
theorem Nested.owned_vulkanCall (h : p.Nested) (hp : p.Sound) (n : Nat) :
    ((p.allEdges.get .vulkanCall).owned n).toList =
      (p.owned .allEvent n).filter fun m => !isNoCall p.nodes m := by
  have howned : ((p.allEdges.get .vulkanCall).owned n).toList =
      if isNoCall p.nodes n then []
      else (p.owned .allEvent n).filter fun m => !isNoCall p.nodes m := EdgeLists.owned_without
  rw [howned]
  split
  · rename_i hn
    refine (List.filter_eq_nil_iff.mpr fun m hm => ?_).symm
    have hm' := h.isNoCall_of_owned hp (Nodes.isNoCall_iff.mp hn) hm
    simp [Nodes.isNoCall_iff.mpr hm']
  · rfl

/-- The view of calls with work leaves out the calls without, and nothing else. -/
theorem Nested.owned_vulkanEvent (h : p.Nested) (hp : p.Sound) (ht : p.nodes.Typed) (n : Nat) :
    ((p.allEdges.get .vulkanEvent).owned n).toList =
      ((p.allEdges.get .vulkanCall).owned n).toList.filter (callClass p.nodes · ≠ .stateCall) := by
  obtain ⟨-, -, howned⟩ := EdgeLists.merged_spec (p.allEdges.get .vulkanCall) (callClass p.nodes)
  refine (howned n).trans ?_
  split
  · rename_i hn
    have hnil : ((p.allEdges.get .vulkanCall).owned n).toList = [] := by
      rw [h.owned_vulkanCall hp]
      refine List.filter_eq_nil_iff.mpr fun m hm => ?_
      have hm' := h.isNoCall_of_stateCall ht (Nodes.callClass_eq_stateCall.mp hn) hm
      simp [Nodes.isNoCall_iff.mpr hm']
    rw [hnil]
    rfl
  · rfl

end Pass

namespace Hierarchy

variable {o : Options} {c : Capture} {h : Hierarchy}

/-- A view leaves out a node: nobody owns it, and it has no children. -/
structure Omits (h : Hierarchy) (v : View) (n : Nat) : Prop where
  parent : (h.forest v).parent? n = none
  owned : (h.forest v).children n = #[]
  shared : h.shared v n = []

/-- The view of calls has the edges of the view with all events, in the same order, but for those to
events, synchronisations, states and barriers. The view of calls with work has the edges of the
view of calls, in the same order, but for those to calls without work. So no call is lost with its
owner. What is left out has no edges at all. -/
theorem ofCapture_calls (hb : ofCapture o c = .ok h) :
    (∀ n m, h.Owns .vulkanCall n m ↔ h.Owns .allEvent n m ∧ ¬h.nodes.IsNoCall m) ∧
      (∀ n m, h.Owns .vulkanEvent n m ↔ h.Owns .vulkanCall n m ∧ ¬h.nodes.IsStateCall m) ∧
      (∀ n, ((h.forest .vulkanCall).children n).toList.Sublist
        ((h.forest .allEvent).children n).toList) ∧
      (∀ n, ((h.forest .vulkanEvent).children n).toList.Sublist
        ((h.forest .vulkanCall).children n).toList) ∧
      (∀ n, h.nodes.IsNoCall n → h.Omits .vulkanCall n ∧ h.Omits .vulkanEvent n) ∧
      ∀ n, h.nodes.IsStateCall n → h.Omits .vulkanEvent n := by
  have hf := (ofCapture_spec o c).1 h hb
  have hforest := isForest_of_finishes hf
  obtain ⟨q, hq, hnodes, hbakes⟩ := hf
  have hnested := hq.reached.nested
  have htyped := hq.reached.typed
  have hcall (n : Nat) : ((h.forest .vulkanCall).children n).toList =
      ((h.forest .allEvent).children n).toList.filter fun m => !Pass.isNoCall h.nodes m := by
    rw [(hbakes .vulkanCall).children, (hbakes .allEvent).children, hnodes]
    exact hnested.owned_vulkanCall hq.sound n
  have hevent (n : Nat) : ((h.forest .vulkanEvent).children n).toList =
      ((h.forest .vulkanCall).children n).toList.filter
        (Pass.callClass h.nodes · ≠ .stateCall) := by
    rw [(hbakes .vulkanEvent).children, (hbakes .vulkanCall).children, hnodes]
    exact hnested.owned_vulkanEvent hq.sound htyped n
  have hownsCall (n m : Nat) :
      h.Owns .vulkanCall n m ↔ h.Owns .allEvent n m ∧ ¬h.nodes.IsNoCall m := by
    rw [Owns, Array.mem_def, hcall, List.mem_filter, ← Array.mem_def, Bool.not_eq_true',
      ← Bool.not_eq_true, Nodes.isNoCall_iff, Owns]
  have hownsEvent (n m : Nat) :
      h.Owns .vulkanEvent n m ↔ h.Owns .vulkanCall n m ∧ ¬h.nodes.IsStateCall m := by
    rw [Owns, Array.mem_def, hevent, List.mem_filter, ← Array.mem_def, decide_eq_true_eq, ne_eq,
      Nodes.callClass_eq_stateCall, Owns]
  have homits {v : View} {n : Nat} (howner : ∀ m, ¬h.Owns v m n)
      (howned : ((q.allEdges.get v).owned n).toList = [])
      (hshared : (q.allEdges.get v).shared n = #[]) : h.Omits v n := {
    parent := Option.eq_none_iff_forall_ne_some.mpr fun m hm => howner m ((hforest v).parent.mp hm)
    owned := by rw [(hbakes v).children]; exact Array.toList_eq_nil_iff.mp howned
    shared := by rw [shared, (hbakes v).shared, hshared] }
  refine ⟨hownsCall, hownsEvent, fun n => ?_, fun n => ?_, fun n hn => ?_, fun n hn => ?_⟩
  · rw [hcall]
    exact List.filter_sublist
  · rw [hevent]
    exact List.filter_sublist
  · have hdrop : Pass.isNoCall q.nodes n := Nodes.isNoCall_iff.mpr (hnodes ▸ hn)
    have howned : ((q.allEdges.get .vulkanCall).owned n).toList = [] :=
      EdgeLists.owned_without.trans (if_pos hdrop)
    have hshared : (q.allEdges.get .vulkanCall).shared n = #[] :=
      EdgeLists.shared_without.trans (if_pos hdrop)
    have hclass : Pass.callClass q.nodes n = .noCall :=
      Nodes.IsNoCall.callClass_eq (hnodes ▸ hn) htyped
    refine ⟨homits (fun m hm => ((hownsCall m n).mp hm).2 hn) howned hshared,
      homits (fun m hm => ((hownsCall m n).mp ((hownsEvent m n).mp hm).1).2 hn) ?_ ?_⟩
    · rw [hnested.owned_vulkanEvent hq.sound htyped, howned]
      rfl
    · refine (EdgeLists.shared_merged (by simp [hclass])).trans ?_
      rw [if_neg (by simp [hclass])]
      exact hshared
  · have hclass : Pass.callClass q.nodes n = .stateCall :=
      Nodes.callClass_eq_stateCall.mpr (hnodes ▸ hn)
    obtain ⟨-, -, howned⟩ :=
      EdgeLists.merged_spec (q.allEdges.get .vulkanCall) (Pass.callClass q.nodes)
    refine homits (fun m hm => ((hownsEvent m n).mp hm).2 hn)
      ((howned n).trans (if_pos hclass)) ?_
    refine (EdgeLists.shared_merged (by simp [hclass])).trans ?_
    exact if_pos hclass

/-- A capture of two calls and a draw: the second call does work and is in both views, the first in
one of them, and the draw in none. -/
theorem ofCapture_calls_draw :
    let c : Capture := {
      submits := [{ engine := .universal, queue := .universal, ibs := [{ va := 0, size := 5 }] }]
      memory := .flat (Words.toBytes #[
        Header.ofOpcode Opcode.nop 1, CallMarker.word .bindPipeline,
        Header.ofOpcode Opcode.nop 1, CallMarker.word .draw, Header.ofOpcode Opcode.drawAuto 0]) }
    ∃ h, ofCapture {} c = .ok h ∧ h.Owns .vulkanEvent 6 11 ∧ h.Owns .vulkanCall 6 9 ∧
      h.Omits .vulkanEvent 9 ∧ h.Omits .vulkanCall 13 := by
  intro c
  have hbuild : ∃ h, ofCapture {} c = .ok h ∧ (h.forest .allEvent).children 6 = #[9, 11] ∧
      h.nodes.aux? 9 = some (.marker .diveMetadata 41) ∧
      h.nodes.aux? 11 = some (.marker .diveMetadata 10) ∧ h.nodes.kind? 9 = some .marker ∧
      h.nodes.kind? 11 = some .marker ∧ h.nodes.kind? 13 = some .event := by decide +kernel
  obtain ⟨h, hb, howned, haux9, haux11, hk9, hk11, hk13⟩ := hbuild
  have hcall9 : ¬h.nodes.IsNoCall 9 := by
    simp [Nodes.IsNoCall, Nodes.markerKind?, hk9, haux9, Aux.markerKind?]
  have hcall11 : ¬h.nodes.IsNoCall 11 := by
    simp [Nodes.IsNoCall, Nodes.markerKind?, hk11, haux11, Aux.markerKind?]
  have hwork : ¬h.nodes.IsStateCall 11 := by
    rintro ⟨id, haux, hnot⟩
    rw [haux11] at haux
    cases haux
    exact hnot .draw rfl rfl
  have hstate : h.nodes.IsStateCall 9 :=
    ⟨41, haux9, fun command hid => by revert hid; cases command <;> decide⟩
  obtain ⟨hcalls, hevents, -, -, hnoCall, hstateCall⟩ := ofCapture_calls hb
  have h9 : h.Owns .vulkanCall 6 9 := (hcalls 6 9).mpr ⟨by simp [Owns, howned], hcall9⟩
  have h11 : h.Owns .vulkanCall 6 11 := (hcalls 6 11).mpr ⟨by simp [Owns, howned], hcall11⟩
  exact ⟨h, hb, (hevents 6 11).mpr ⟨h11, hwork⟩, h9, hstateCall 9 hstate,
    (hnoCall 13 (.inl (by simp [hk13]))).1⟩

end Hierarchy

end CaptureForest
