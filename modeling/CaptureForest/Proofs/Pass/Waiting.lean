import CaptureForest.Proofs.Pass.Apart
import CaptureForest.Proofs.Pass.Reach

/-! # What waits for a command buffer

A pass forgets what it remembers for a command buffer when a buffer is entered or left and behind
every recorded call. Else it remembers all packets, and all nodes that end a run of packets, that
were added since (`Pass.Waiting`), and a command buffer that begins takes exactly these over
(`Pass.TakesOver`). -/

namespace CaptureForest

/-- What waits for a command buffer is forgotten behind the step: it enters or leaves a buffer or
executes a recorded call. -/
def Step.forgets (m : Reader) (index : Nat) (x : Step) : Bool :=
  match x with
  | .enter .. | .leave .. => true
  | .packet .. => (x.call? m index).isSome

namespace Nodes

variable {nodes : Nodes} {new : List Node} {node : Node} {first n : Nat}
  {P : Option NodeKind → Bool}

/-- The nodes of some kinds from the node `first` on, in order. -/
def since (nodes : Nodes) (first : Nat) (P : Option NodeKind → Bool) : List Nat :=
  ((List.range nodes.size).filter fun n => P (nodes.kind? n)).filter (first ≤ ·)

theorem since_size : nodes.since nodes.size P = [] := by
  refine List.filter_eq_nil_iff.mpr fun n hn => ?_
  have hlt := List.mem_range.mp (List.mem_filter.mp hn).1
  simpa using hlt

theorem since_append (hfirst : first ≤ nodes.size) : since (nodes ++ new) first P =
    nodes.since first P ++ ((List.range new.length).filter fun i => P (new[i]?.map (·.kind))).map
      (nodes.size + ·) := by
  rw [since, filter_append, List.filter_append, since]
  congr 1
  refine List.filter_eq_self.mpr fun n hn => ?_
  obtain ⟨i, -, rfl⟩ := List.mem_map.mp hn
  exact decide_eq_true (Nat.le_add_right_of_le hfirst)

theorem since_append_of_not (hfirst : first ≤ nodes.size)
    (hnew : ∀ node ∈ new, P (some node.kind) = false) :
    since (nodes ++ new) first P = nodes.since first P := by
  rw [since_append hfirst, List.filter_eq_nil_iff.mpr, List.map_nil, List.append_nil]
  intro i hi hP
  rw [List.getElem?_eq_getElem (List.mem_range.mp hi), Option.map_some,
    hnew _ (List.getElem_mem _)] at hP
  cases hP

theorem since_append_single (hfirst : first ≤ nodes.size) (hP : P (some node.kind)) :
    since (nodes ++ [node]) first P = nodes.since first P ++ [nodes.size] := by
  rw [since_append hfirst]
  simp [List.range_succ, hP]

end Nodes

namespace Pass

variable {o : Options} {m : Reader} {index submit first : Nat} {x : Step} {p q r : Pass}

/-- The kinds of nodes that a command buffer takes over. -/
def isEvent (k : Option NodeKind) : Bool := k.any NodeKind.endsRun

/-- The kind of node that a command buffer shares. -/
def isPacket (k : Option NodeKind) : Bool := k = some .packet

/-- All events and packets from the node `first` on wait for a command buffer. -/
structure Waiting (p : Pass) (first : Nat) : Prop where
  le : first ≤ p.nodes.size
  events : p.beginEvents.toList.map (·.node) = p.nodes.since first isEvent
  packets : p.beginPackets.toList = p.nodes.since first isPacket

/-- When a step has made a pass forget what waits, nothing does. -/
theorem Turns.waiting_of_forgets (h : Turns o m index submit p x q) (hx : x.forgets m index) :
    q.Waiting q.nodes.size := by
  have hnone (hevents : q.beginEvents = #[]) (hpackets : q.beginPackets = #[]) :
      q.Waiting q.nodes.size := by
    refine ⟨Nat.le_refl _, ?_, ?_⟩
    · rw [Nodes.since_size, hevents]
      rfl
    · rw [Nodes.since_size, hpackets]
  cases h with
  | enter hq =>
    exact hnone (congrArg Pass.beginEvents hq.context :) (congrArg Pass.beginPackets hq.context :)
  | leave => exact hnone rfl rfl
  | skip => simp [Step.forgets, Step.call?_unknown] at hx
  | packet _ hq =>
    cases hq with
    | works _ hw hc => simp [Step.forgets, Step.call?_packet hw, hc] at hx
    | obeys => exact hnone rfl rfl

variable {buffer va : Nat} {kind : PacketKind} {header : UInt32} {words : Array UInt32}

/-- A packet waits when it has been filed. -/
theorem Logs.waiting (h : Logs o submit buffer va kind header words p q) (hp : p.Waiting first) :
    q.Waiting first where
  le := Nat.le_trans hp.le h.adds.le_size
  events := by
    have hevents : q.beginEvents = p.beginEvents := (congrArg Pass.beginEvents h.context :)
    rw [hevents, hp.events, h.adds.nodes, Nodes.since_append_of_not hp.le]
    intro node hnode
    rcases List.mem_cons.mp hnode with rfl | hnode
    · rfl
    · rcases packetBelow_kind hnode with hk | hk <;> rw [hk] <;> rfl
  packets := by
    have hpackets : q.beginPackets = p.beginPackets.push p.nodes.size :=
      (congrArg Pass.beginPackets h.context :)
    have hnodes : q.nodes = p.nodes ++ [packetNode p.onConstantEngine va kind header] ++
        packetBelow o p.onConstantEngine kind header words := by
      rw [Nodes.append_append_list, List.singleton_append]
      exact h.adds.nodes
    rw [hpackets, Array.toList_push, hp.packets, hnodes, Nodes.since_append_of_not,
      Nodes.since_append_single hp.le rfl]
    · exact Nodes.size_append_list ▸ Nat.le_add_right_of_le hp.le
    · intro node hnode
      rcases packetBelow_kind hnode with hk | hk <;> rw [hk] <;> rfl

/-- A node that ends a run of packets waits. -/
theorem Works.waiting {op? : Option UInt8} (h : Works o submit op? words p q)
    (hp : p.Waiting first) : q.Waiting first := by
  have hends {node : Node} {r : Pass} {owned shared : Links} (hr : p.Adds r [node] owned shared)
      (hnode : node.kind.endsRun)
      (hevents : r.beginEvents = p.beginEvents.push (p.pendingEvent submit p.nodes.size))
      (hpackets : r.beginPackets = p.beginPackets) : r.Waiting first := by
    have hpacket : isPacket (some node.kind) = false := by
      revert hnode
      cases node.kind <;> decide
    refine ⟨Nat.le_trans hp.le hr.le_size, ?_, ?_⟩
    · rw [hevents, Array.toList_push, List.map_append, hp.events, hr.nodes,
        Nodes.since_append_single hp.le hnode]
      rfl
    · rw [hpackets, hp.packets, hr.nodes, Nodes.since_append_of_not hp.le (by simp [hpacket])]
  cases h with
  | sync _ _ hq hctx | event _ _ hq hctx =>
    exact hends hq rfl (congrArg Pass.beginEvents hctx :) (congrArg Pass.beginPackets hctx :)
  | nothing => exact hp

theorem Shares.waiting {packet : Nat} (h : p.Shares packet q) (hp : p.Waiting first) :
    q.Waiting first := by
  have hnodes : q.nodes = p.nodes := h.adds.nodes.trans Array.appendList_nil
  have hevents : q.beginEvents = p.beginEvents := (congrArg Pass.beginEvents h.context :)
  have hpackets : q.beginPackets = p.beginPackets := (congrArg Pass.beginPackets h.context :)
  exact ⟨hnodes ▸ hp.le, by rw [hevents, hnodes, hp.events], by rw [hpackets, hnodes, hp.packets]⟩

/-- What waits still does behind a step that does not make the pass forget it. -/
theorem Turns.waiting (h : Turns o m index submit p x q) (hx : x.forgets m index = false)
    (hp : p.Waiting first) : q.Waiting first := by
  cases h with
  | enter | leave => cases hx
  | skip => exact hp
  | packet _ hq =>
    cases hq with
    | works _ _ _ hr hs hq => exact hq.waiting (hs.waiting (hr.waiting hp))
    | obeys _ hw hc => simp [Step.forgets, Step.call?_packet hw, hc] at hx

/-! ## Command buffers that begin -/

/-- From `p` to `q` a command buffer begins. Its marker is the last node; before it the packet that
begins the command buffer is added, with the fields of that packet. -/
structure TakesOver (p q : Pass) (first parent marker : Nat) : Prop where
  packet : q.nodes.kind? p.nodes.size = some .packet
  begins : q.nodes.Begins marker
  isOpen : q.openCall = some marker
  lt : p.nodes.size < marker
  last : q.nodes.size = marker + 1
  owner : p.nodes.kind? parent = some .submit ∨ p.nodes.kind? parent = some .marker
  /-- The marker owns what waits. -/
  owned : ∀ v ∈ View.withEvents, q.owned v marker = p.nodes.since first isEvent
  /-- Each older node keeps all else in order, and one of them gets the marker. -/
  others : ∀ v ∈ View.withEvents, ∀ n < p.nodes.size, q.owned v n =
    (p.owned v n).filter (· ∉ p.nodes.since first isEvent) ++ if n = parent then [marker] else []
  /-- The nodes in between own each other only. -/
  fields : ∀ v ∈ View.withEvents, ∀ n, p.nodes.size ≤ n → n < marker → ∀ c ∈ q.owned v n,
    p.nodes.size < c ∧ c < marker
  /-- The marker shares the packets that wait, and then its own. -/
  shared : ∀ v ∈ View.withEvents,
    q.shared v marker = p.nodes.since first isPacket ++ [p.nodes.size]

/-- The call is the only one that begins a command buffer. -/
theorem Obeys.of_beginCommandBuffer {call : CallMarker} (h : Obeys o submit call p q)
    (hcall : call.command = .beginCommandBuffer) :
    p.Regroups q (p.beginEvents.toList.map (·.node))
      [callNode o p.metadataVersion call .diveMetadata]
      (takeover (p.callClosed.bufferOwner submit) p.nodes.size
        (p.beginEvents.toList.map (·.node)))
      (.on View.withEvents (p.beginPackets.toList.map (p.nodes.size, ·))) ∧
    q.openCall = some p.nodes.size := by
  cases h with
  | beginsBuffer _ hq hctx => exact ⟨hq, (congrArg Pass.openCall hctx :)⟩
  | endsBuffer hc | beginsLabel hc | endsLabel hc | insertsLabel hc | opensCall hc =>
    rw [hcall] at hc
    exact absurd hc (by decide)

/-- The edges of a marker that takes over others. -/
theorem children_takeover {v : View} {parent node n : Nat} {moved : List Nat}
    (hv : v ∈ View.withEvents) : (takeover parent node moved v).children n =
      (if n = parent then [node] else []) ++ if n = node then moved else [] := by
  rw [takeover, Links.on_apply, if_pos hv, EdgeLog.children_cons]
  have hmoved : EdgeLog.children (moved.map (node, ·)) n = if n = node then moved else [] := by
    split
    · rename_i heq
      rw [heq, EdgeLog.children_fan]
    · rename_i hne
      refine List.eq_nil_iff_forall_not_mem.mpr fun c hc => ?_
      obtain ⟨_, -, heq⟩ := List.mem_map.mp (EdgeLog.mem_children.mp hc)
      exact hne (congrArg Prod.fst heq).symm
  rw [hmoved]
  by_cases h : parent = n
  · rw [if_pos h, if_pos h.symm, List.singleton_append]
  · rw [if_neg h, if_neg (Ne.symm h), List.nil_append]

/-- The nodes that are added with a packet own each other only, and none of them owns the packet. -/
theorem Logs.owned_new {v : View} {n c : Nat} (h : Logs o submit buffer va kind header words p q)
    (hp : p.Sound) (hn : p.nodes.size ≤ n) (hc : c ∈ q.owned v n) :
    p.nodes.size < c ∧ c < q.nodes.size := by
  obtain ⟨_, _, -, hk, howns, -⟩ := (h.sound hp).arranged.fits hc
  rw [h.adds.owned, hp.sized.owned_eq_nil hn, List.nil_append] at hc
  have hge := (le_of_mem_packetLog (Links.mem_on.mp (EdgeLog.mem_children.mp hc)).2).2
  refine ⟨Nat.lt_of_le_of_ne hge ?_, Nodes.kind?_lt hk⟩
  rintro rfl
  cases hk.symm.trans h.packet_kind?
  exact View.not_owns_packet howns

/-- A command buffer that begins takes over what waits. -/
theorem Logs.takesOver {call : CallMarker} (h : Logs o submit buffer va kind header words p r)
    (ho : Obeys o submit call r.marked q) (hcall : call.command = .beginCommandBuffer)
    (hp : p.Sound) (hs : p.submit = some submit) (hw : p.Waiting first) :
    p.TakesOver q first (p.callClosed.bufferOwner submit) r.nodes.size := by
  obtain ⟨hq, hopen⟩ := ho.of_beginCommandBuffer hcall
  have hparent : p.nodes.kind? (p.callClosed.bufferOwner submit) = some .submit ∨
      p.nodes.kind? (p.callClosed.bufferOwner submit) = some .marker := by
    obtain ⟨k, hk, rfl | rfl⟩ := hp.callClosed.bufferOwner hs
    · exact .inl hk
    · exact .inr hk
  have howner : r.marked.callClosed.bufferOwner submit = p.callClosed.bufferOwner submit :=
    (congrArg (fun c : Pass => c.callClosed.bufferOwner submit) h.context :)
  have hevents : r.marked.beginEvents.toList.map (·.node) = p.nodes.since first isEvent := by
    have hkeep : r.marked.beginEvents = p.beginEvents := (congrArg Pass.beginEvents h.context :)
    rw [hkeep, hw.events]
  have hpackets : r.marked.beginPackets.toList =
      p.nodes.since first isPacket ++ [p.nodes.size] := by
    have hpush : r.marked.beginPackets = p.beginPackets.push p.nodes.size :=
      (congrArg Pass.beginPackets h.context :)
    rw [hpush, Array.toList_push, hw.packets]
  have hlt : p.nodes.size < r.nodes.size := Nodes.kind?_lt h.packet_kind?
  have hparent_lt : p.callClosed.bufferOwner submit < p.nodes.size :=
    hparent.elim Nodes.kind?_lt Nodes.kind?_lt
  have howned {v : View} (hv : v ∈ View.withEvents) (n : Nat) : q.owned v n =
      (r.owned v n).filter (· ∉ p.nodes.since first isEvent) ++
        ((if n = p.callClosed.bufferOwner submit then [r.nodes.size] else []) ++
          if n = r.nodes.size then p.nodes.since first isEvent else []) := by
    rw [hq.owned, if_pos hv, children_takeover hv, howner, hevents]
    rfl
  have hrs := h.sound hp
  exact {
    packet := hq.nodes ▸ Nodes.kind?_append h.packet_kind?
    begins := by
      rw [Nodes.Begins, Nodes.aux?, hq.nodes, ← hcall]
      exact congrArg (Option.map (·.aux)) Nodes.getElem?_append_head
    isOpen := hopen
    lt := hlt
    last := by rw [hq.nodes, Nodes.size_append_list]; rfl
    owner := hparent
    owned := fun v hv => by
      rw [howned hv, hrs.sized.owned_eq_nil (Nat.le_refl _), if_neg (by omega), if_pos rfl]
      rfl
    others := fun v hv n hn => by
      have hne : n ≠ r.nodes.size := by omega
      rw [howned hv, h.owned_old hn, if_neg hne, List.append_nil]
    fields := fun v hv n hle hn c hc => by
      have hne : n ≠ p.callClosed.bufferOwner submit := by omega
      have hne' : n ≠ r.nodes.size := by omega
      rw [howned hv, if_neg hne, if_neg hne', List.append_nil, List.append_nil] at hc
      exact h.owned_new hp hle (List.mem_filter.mp hc).1
    shared := fun v hv => by
      have hnil : r.shared v r.nodes.size = [] := hrs.sized.shared_eq_nil (Nat.le_refl _)
      rw [hq.shared, Links.on_apply, if_pos hv, hpackets]
      exact (congrArg (· ++ _) hnil).trans EdgeLog.children_fan }

/-- A step that begins a command buffer takes over what waits. -/
theorem Turns.takesOver (h : Turns o m index submit p x q)
    (hx : x.command? m index = some .beginCommandBuffer) (hp : p.Sound)
    (hs : p.submit = some submit) (hw : p.Waiting first) :
    ∃ marker, p.TakesOver q first (p.callClosed.bufferOwner submit) marker := by
  cases h with
  | enter | leave => cases hx
  | skip =>
    rw [Step.command?, Step.call?_unknown] at hx
    cases hx
  | packet _ hq =>
    cases hq with
    | works _ hread hc =>
      rw [Step.command?, Step.call?_packet hread, hc] at hx
      cases hx
    | @obeys _ _ call r s _ hread hc hr ho =>
      rw [Step.command?, Step.call?_packet hread, hc] at hx
      have htakes := hr.takesOver ho (Option.some.inj hx) hp hs hw
      exact ⟨r.nodes.size, { htakes with }⟩

end Pass

end CaptureForest
