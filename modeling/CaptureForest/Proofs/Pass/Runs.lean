import CaptureForest.Proofs.Pass.Follow

/-! # Runs of packets

The packets are divided into runs, each of which ends with an event or a synchronisation, or with
the submit. The node that ends a run shares its packets, in both views of events. `Pass.Divided`
says that nothing is lost between the runs: the shared lists of these nodes, one after the other,
and the packets that wait for the next of them are all packets in order. -/

namespace CaptureForest

/-- The kind of a node that shares a run of packets. -/
def NodeKind.takesRun : NodeKind → Bool
  | .event | .sync | .postambleState => true
  | _ => false

namespace Nodes

variable {nodes : Nodes} {new : List Node} {node : Node} {n : Nat}

/-- The nodes that share runs of packets, in order. -/
def runEnds (nodes : Nodes) : List Nat :=
  (List.range nodes.size).filter fun n => (nodes.kind? n).any NodeKind.takesRun

@[simp]
theorem mem_runEnds : n ∈ nodes.runEnds ↔ ∃ k, nodes.kind? n = some k ∧ k.takesRun := by
  rw [runEnds, List.mem_filter, Option.any_eq_true]
  exact ⟨And.right, fun h => ⟨List.mem_range.mpr (kind?_lt h.choose_spec.1), h⟩⟩

theorem runEnds_append_of_not (h : ∀ node ∈ new, ¬node.kind.takesRun) :
    Nodes.runEnds (nodes ++ new) = nodes.runEnds := by
  have hnil : ((List.range new.length).filter fun i =>
      (new[i]?.map (·.kind)).any NodeKind.takesRun) = [] := by
    refine List.filter_eq_nil_iff.mpr fun i _ hi => ?_
    obtain ⟨k, hk, htakes⟩ := (Option.any_eq_true _ _).mp hi
    obtain ⟨node, hnode, rfl⟩ := Option.map_eq_some_iff.mp hk
    exact h node (List.mem_of_getElem? hnode) htakes
  rw [runEnds, filter_append (Option.any NodeKind.takesRun), hnil, List.map_nil, List.append_nil,
    runEnds]

theorem runEnds_append_single (h : node.kind.takesRun) :
    Nodes.runEnds (nodes ++ [node]) = nodes.runEnds ++ [nodes.size] := by
  rw [runEnds, filter_append (Option.any NodeKind.takesRun), runEnds]
  simp [List.range_succ, h]

end Nodes

namespace Pass

variable {p q : Pass} {moved : List Nat} {new : List Node} {owned shared : Links}

/-- All packets are shared by the nodes that end runs, in order, or wait for the next of them. -/
def Divided (p : Pass) : Prop :=
  ∀ v ∈ View.withEvents,
    p.nodes.runEnds.flatMap (p.shared v) ++ p.packets.toList = p.nodes.ofKind .packet

/-- The nodes of a pass, and what they share, are all that counts. -/
theorem Divided.congr (h : p.Divided) (hnodes : q.nodes = p.nodes)
    (hshared : ∀ v n, q.shared v n = p.shared v n) (hpackets : q.packets = p.packets) :
    q.Divided := by
  intro v hv
  have hfun : q.shared v = p.shared v := funext (hshared v)
  rw [hnodes, hfun, hpackets]
  exact h v hv

/-- A node that is new shares nothing before. -/
theorem Sized.shared_size (h : p.Sized) (v : View) : p.shared v p.nodes.size = [] := by
  refine List.eq_nil_iff_forall_not_mem.mpr fun c hc => ?_
  have := EdgeLists.lt_of_mem_shared (Array.mem_def.mpr hc)
  rw [h v] at this
  exact Nat.lt_irrefl _ this

/-- Shared edges from other nodes are of no account. -/
theorem flatMap_shared_eq {v : View} {ends : List Nat}
    (hq : ∀ n, q.shared v n = p.shared v n ++ (shared v).children n)
    (hshared : ∀ e ∈ shared v, e.1 ∉ ends) :
    ends.flatMap (q.shared v) = ends.flatMap (p.shared v) := by
  refine List.flatMap_congr fun n hn => ?_
  have hnil : (shared v).children n = [] := by
    refine List.eq_nil_iff_forall_not_mem.mpr fun c hc => ?_
    exact hshared _ (EdgeLog.mem_children.mp hc) hn
  rw [hq, hnil, List.append_nil]

/-- New nodes that end no run, and shared edges from such nodes, do not count. -/
theorem Divided.regroups (h : p.Divided) (hq : p.Regroups q moved new owned shared)
    (hnew : ∀ node ∈ new, ¬node.kind.takesRun ∧ node.kind ≠ .packet)
    (hshared : ∀ v ∈ View.withEvents, ∀ e ∈ shared v, e.1 ∉ p.nodes.runEnds)
    (hpackets : q.packets = p.packets) : q.Divided := by
  intro v hv
  rw [hq.nodes, Nodes.runEnds_append_of_not fun node hn => (hnew node hn).1,
    Nodes.ofKind_append_of_ne fun node hn => (hnew node hn).2,
    flatMap_shared_eq (hq.shared v) (hshared v hv), hpackets]
  exact h v hv

/-- A run ends with a new node. -/
theorem Divided.endRun {node : Node} (h : p.Divided) (hsized : p.Sized)
    (hq : p.Adds q [node] owned (.on View.withEvents (p.packets.toList.map (p.nodes.size, ·))))
    (hnode : node.kind.takesRun) (hpackets : q.packets = #[]) : q.Divided := by
  intro v hv
  have hne : node.kind ≠ .packet := by
    intro heq
    rw [heq] at hnode
    cases hnode
  have hold : p.nodes.runEnds.flatMap (q.shared v) = p.nodes.runEnds.flatMap (p.shared v) := by
    refine flatMap_shared_eq (hq.shared v) fun e he hends => ?_
    obtain ⟨c, -, rfl⟩ := List.mem_map.mp (Links.mem_on.mp he).2
    obtain ⟨_, hk, -⟩ := Nodes.mem_runEnds.mp hends
    exact Nat.lt_irrefl _ (Nodes.kind?_lt hk)
  have hrun : q.shared v p.nodes.size = p.packets.toList := by
    rw [hq.shared, hsized.shared_size, Links.on_apply, if_pos hv, EdgeLog.children_fan,
      List.nil_append]
  rw [hq.nodes, Nodes.runEnds_append_single hnode,
    Nodes.ofKind_append_of_ne (by simpa using hne), List.flatMap_append, hold,
    List.flatMap_singleton, hrun, hpackets, List.append_nil]
  exact h v hv

/-- A packet waits for the end of its run. -/
theorem Divided.logs {o : Options} {submit buffer va : Nat} {kind : PacketKind} {header : UInt32}
    {words : Array UInt32} (h : p.Divided) (hp : p.Sound) (hs : p.submit = some submit)
    (hq : Logs o submit buffer va kind header words p q) : q.Divided := by
  intro v hv
  have hbelow : ∀ node ∈ packetBelow o p.onConstantEngine kind header words,
      ¬node.kind.takesRun ∧ node.kind ≠ .packet := fun node hn => by
    rcases packetBelow_kind hn with hk | hk <;> rw [hk] <;> decide
  have hruns : q.nodes.runEnds = p.nodes.runEnds := by
    rw [hq.adds.nodes]
    refine Nodes.runEnds_append_of_not fun node hn => ?_
    rcases List.mem_cons.mp hn with rfl | hn
    · exact Bool.false_ne_true
    · exact (hbelow node hn).1
  have hpackets : q.nodes.ofKind .packet = p.nodes.ofKind .packet ++ [p.nodes.size] := by
    rw [hq.adds.nodes, ← List.singleton_append, ← Nodes.append_append_list,
      Nodes.ofKind_append_of_ne fun node hn => (hbelow node hn).2,
      Nodes.ofKind_append_single (k := .packet) rfl]
  have hold : p.nodes.runEnds.flatMap (q.shared v) = p.nodes.runEnds.flatMap (p.shared v) := by
    refine flatMap_shared_eq (hq.adds.shared v) fun e he hends => ?_
    obtain ⟨k, hk, htakes⟩ := Nodes.mem_runEnds.mp hends
    rcases List.mem_append.mp he with he | he
    · cases List.mem_singleton.mp (Links.mem_on.mp he).2
      rw [hp.submit submit hs] at hk
      cases hk
      cases htakes
    · exact absurd hv (not_mem_withEvents (Links.mem_on.mp he).1)
  have hwaits : q.packets = p.packets.push p.nodes.size := (congrArg Pass.packets hq.context :)
  rw [hruns, hold, hwaits, hpackets, Array.toList_push, ← List.append_assoc, h v hv]

/-- A recorded call ends no run. -/
theorem Divided.obeys {o : Options} {submit : Nat} {call : CallMarker} (h : p.Divided)
    (hq : Obeys o submit call p q) : q.Divided := by
  -- Shared edges start at the new marker, if there are any.
  have hnew : ∀ e ∈ p.beginPackets.toList.map (p.nodes.size, ·), e.1 ∉ p.nodes.runEnds := by
    intro e he hends
    obtain ⟨c, -, rfl⟩ := List.mem_map.mp he
    obtain ⟨_, hk, -⟩ := Nodes.mem_runEnds.mp hends
    exact Nat.lt_irrefl _ (Nodes.kind?_lt hk)
  have hnone : ∀ v ∈ View.withEvents, ∀ e ∈ Links.none v, e.1 ∉ p.nodes.runEnds :=
    fun _ _ _ he => absurd he Links.not_mem_none
  have hpackets : q.packets = p.packets := (congrArg Pass.packets hq.still_eq :)
  cases hq with
  | beginsBuffer _ hq =>
    exact h.regroups hq (by simp [callNode, NodeKind.takesRun])
      (fun v _ e he => hnew e (Links.mem_on.mp he).2) hpackets
  | endsBuffer _ hq | opensCall _ hq =>
    exact h.regroups hq.regroups_nil (by simp [callNode, NodeKind.takesRun]) hnone hpackets
  | beginsLabel _ hq | insertsLabel _ hq =>
    exact h.regroups hq.regroups_nil (by simp [labelNode, NodeKind.takesRun]) hnone hpackets
  | endsLabel => exact h

/-- Nothing that happens loses a packet. -/
theorem Change.divided (hc : p.Change q) (hp : p.Sound) (h : p.Divided) : q.Divided := by
  have hnone : ∀ v ∈ View.withEvents, ∀ e ∈ Links.none v, e.1 ∉ p.nodes.runEnds :=
    fun _ _ _ he => absurd he Links.not_mem_none
  cases hc with
  | submitBegins _ _ hq hctx =>
    exact h.regroups hq.regroups_nil (by simp [submitNode, NodeKind.takesRun]) hnone
      (congrArg Pass.packets hctx :)
  | enters _ hq =>
    obtain ⟨_, _, hctx⟩ := hq.context_eq
    exact h.regroups hq.adds.regroups_nil (by simp [bufferNode, NodeKind.takesRun]) hnone
      (congrArg Pass.packets hctx :)
  | leaves =>
    obtain ⟨_, _, _, _, _, hleft⟩ := p.left_eq
    rw [hleft]
    exact h
  | logs hs _ hq => exact h.logs hp hs hq
  | works _ hq =>
    cases hq with
    | sync _ _ hq hctx | event _ _ hq hctx =>
      exact h.endRun hp.sized hq rfl (congrArg Pass.packets hctx :)
    | nothing => exact h
  | shares _ hq =>
    refine h.regroups hq.adds.regroups_nil (by simp) (fun v _ e he hends => ?_)
      (congrArg Pass.packets hq.context :)
    obtain ⟨m, hm, rfl⟩ := List.mem_map.mp (Links.mem_on.mp he).2
    obtain ⟨k, hk, htakes⟩ := Nodes.mem_runEnds.mp hends
    rw [hp.stacked.markers m hm] at hk
    cases hk
    cases htakes
  | marks | clears | unmarks | submitEnds => exact h
  | obeys _ _ hq => exact h.obeys hq
  | sorts hs =>
    exact h.congr rfl (sorted_replaces hp.sized (Nodes.kind?_lt (hp.submit _ hs))).shared rfl
  | endsState _ hq hctx =>
    exact h.endRun hp.sized hq rfl (congrArg Pass.packets hctx :)
  | presents hq hctx =>
    exact h.regroups hq.regroups_nil (by simp [presentNode, NodeKind.takesRun]) hnone
      (congrArg Pass.packets hctx :)

end Pass

end CaptureForest
