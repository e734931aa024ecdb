import CaptureForest.Proofs.Pass.Buffer
import CaptureForest.Proofs.Pass.Steps

/-! # Typed nodes

Every node carries the data of its kind, in every pass: no change adds another. -/

namespace CaptureForest

/-- A node carries the data of its kind. -/
def Node.isTyped (node : Node) : Bool :=
  match node.kind, node.aux with
  | .root, .none | .engine, .none | .postambleState, .none | .present, .none => true
  | .submit, .submit _ _ | .ib, .ib _ _ _ _ | .packet, .packet _ _ _ => true
  | .reg, .regField _ | .field, .regField _ => true
  | .event, .event _ | .marker, .marker _ _ | .sync, .sync _ => true
  | _, _ => false

/-- The kinds of nodes that such data belongs to. -/
def Aux.kinds : Aux → List NodeKind
  | .none => [.root, .engine, .postambleState, .present]
  | .submit _ _ => [.submit]
  | .ib _ _ _ _ => [.ib]
  | .packet _ _ _ => [.packet]
  | .regField _ => [.reg, .field]
  | .event _ => [.event]
  | .marker _ _ => [.marker]
  | .sync _ => [.sync]

theorem Node.isTyped_iff {node : Node} : node.isTyped ↔ node.kind ∈ node.aux.kinds := by
  obtain ⟨kind, _, aux, _⟩ := node
  cases aux <;> cases kind <;> simp [isTyped, Aux.kinds]

/-- All nodes carry the data of their kinds. -/
def Nodes.Typed (nodes : Nodes) : Prop :=
  ∀ (n : Nat) (node : Node), nodes[n]? = some node → node.isTyped

namespace Nodes.Typed

variable {nodes : Nodes} {new : List Node} {n : Nat}

theorem empty : Nodes.Typed #[] := fun n node hn => by
  rw [Array.getElem?_empty] at hn
  cases hn

theorem append (h : nodes.Typed) (hnew : ∀ node ∈ new, node.isTyped) :
    Nodes.Typed (nodes ++ new) := by
  intro n node hn
  rcases Nat.lt_or_ge n nodes.size with hlt | hge
  · rw [getElem?_append_old hlt] at hn
    exact h n node hn
  · obtain ⟨i, rfl⟩ := Nat.exists_eq_add_of_le hge
    rw [getElem?_append_new] at hn
    exact hnew node (List.mem_of_getElem? hn)

/-- The data of a node tells which kinds it can be of. -/
theorem kind?_of_aux {aux : Aux} (h : nodes.Typed) (hn : nodes.aux? n = some aux) :
    ∃ k ∈ aux.kinds, nodes.kind? n = some k := by
  obtain ⟨node, hnode, rfl⟩ := Option.map_eq_some_iff.mp hn
  exact ⟨node.kind, Node.isTyped_iff.mp (h n node hnode), by rw [kind?, hnode, Option.map_some]⟩

/-- A node of some kind has data that belongs to the kind. -/
theorem aux?_of_kind {k : NodeKind} (h : nodes.Typed) (hn : nodes.kind? n = some k) :
    ∃ aux, nodes.aux? n = some aux ∧ k ∈ aux.kinds := by
  obtain ⟨node, hnode, rfl⟩ := Option.map_eq_some_iff.mp hn
  exact ⟨node.aux, by rw [aux?, hnode, Option.map_some], Node.isTyped_iff.mp (h n node hnode)⟩

/-- Data that belongs to one kind only tells the kind. -/
theorem kind?_of_aux_single {aux : Aux} {k : NodeKind} (h : nodes.Typed)
    (hn : nodes.aux? n = some aux) (hk : aux.kinds = [k]) : nodes.kind? n = some k := by
  obtain ⟨k', hmem, hkind⟩ := h.kind?_of_aux hn
  rw [hk, List.mem_singleton] at hmem
  exact hmem ▸ hkind

/-- What has the data of a marker is a marker. -/
theorem kind?_marker {kind : MarkerKind} {id : Nat} (h : nodes.Typed)
    (hn : nodes.aux? n = some (.marker kind id)) : nodes.kind? n = some .marker :=
  h.kind?_of_aux_single hn rfl

/-- What has the data of an event is an event. -/
theorem kind?_event {id : Nat} (h : nodes.Typed) (hn : nodes.aux? n = some (.event id)) :
    nodes.kind? n = some .event :=
  h.kind?_of_aux_single hn rfl

/-- What has the data of a packet is a packet. -/
theorem kind?_packet {address : Nat} {opcode : UInt8} {ce : Bool} (h : nodes.Typed)
    (hn : nodes.aux? n = some (.packet address opcode ce)) : nodes.kind? n = some .packet :=
  h.kind?_of_aux_single hn rfl

/-- What has the data of a buffer is a buffer. -/
theorem kind?_ib {kind : IbKind} (h : nodes.Typed) (hn : nodes.ibKind? n = some kind) :
    nodes.kind? n = some .ib := by
  obtain ⟨aux, haux, hkind⟩ := Option.bind_eq_some_iff.mp hn
  cases aux with
  | ib => exact h.kind?_of_aux_single haux rfl
  | _ => cases hkind

end Nodes.Typed

namespace Pass

variable {p q : Pass}

/-- Every change adds nodes with the data of their kinds only. -/
theorem Change.typed (hc : p.Change q) (h : p.nodes.Typed) : q.nodes.Typed := by
  have hadd {r : Pass} {node : Node} (hr : r.nodes = p.nodes ++ [node]) (hnode : node.isTyped) :
      r.nodes.Typed := by
    rw [hr]
    exact h.append (by simpa using hnode)
  cases hc with
  | submitBegins _ _ hq => exact hadd hq.nodes rfl
  | enters _ hq => exact hadd hq.adds.nodes rfl
  | leaves =>
    obtain ⟨_, _, _, _, _, hleft⟩ := p.left_eq
    rw [hleft]
    exact h
  | logs _ _ hq =>
    rw [hq.adds.nodes]
    refine h.append fun node hn => ?_
    rcases List.mem_cons.mp hn with rfl | hn
    · rfl
    · obtain ⟨k, line, hk, rfl⟩ := of_mem_packetBelow hn
      rcases hk with rfl | rfl <;> rfl
  | works _ hq =>
    cases hq with
    | sync _ _ hq | event _ _ hq => exact hadd hq.nodes rfl
    | nothing => exact h
  | shares _ hq =>
    rw [hq.adds.nodes]
    exact h.append (by simp)
  | obeys _ _ hq =>
    cases hq with
    | beginsBuffer _ hq | endsBuffer _ hq | beginsLabel _ hq | insertsLabel _ hq
      | opensCall _ hq => exact hadd hq.nodes rfl
    | endsLabel => exact h
  | endsState _ hq | presents hq => exact hadd hq.nodes rfl
  | marks | clears | sorts | unmarks | submitEnds => exact h

end Pass

end CaptureForest
