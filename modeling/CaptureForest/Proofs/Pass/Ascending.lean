import CaptureForest.Proofs.Pass.Apart

/-! # Nodes in order

Nodes are numbered in the order in which they are added. In the views with events the children of a
node are in this order, and so are the packets and the events that wait. The packets that a node
shares are, too, unless it is a marker (`Pass.Ascending`). -/

namespace CaptureForest

open List (Pairwise)

/-- The children can be listed behind those of the node `n`, when there have been `size` nodes: they
are in order, and they are new if the node is not. -/
structure Extends (size n : Nat) (children : List Nat) : Prop where
  sorted : children.Pairwise (· < ·)
  new : n < size → ∀ c ∈ children, size ≤ c

namespace Extends

variable {size n m : Nat} {log : EdgeLog} {views : List View} {v : View} {l : List Nat}

theorem nil : Extends size n [] := ⟨.nil, nofun⟩

theorem of_log (hsorted : (log.map (·.2)).Pairwise (· < ·))
    (hnew : ∀ e ∈ log, size ≤ e.1 ∨ size ≤ e.2) : Extends size n (log.children n) where
  sorted := hsorted.sublist (List.filter_sublist.map _)
  new hn _ hc := (hnew _ (EdgeLog.mem_children.mp hc)).resolve_left (Nat.not_le.mpr hn)

theorem on (h : Extends size n (log.children n)) :
    Extends size n ((Links.on views log v).children n) := by
  rw [Links.on_apply]
  split
  · exact h
  · exact .nil

/-- One new child. -/
theorem single : Extends size n (EdgeLog.children [(m, size)] n) :=
  .of_log (List.pairwise_singleton ..) fun e he => by
    rw [List.mem_singleton.mp he]
    exact .inr (Nat.le_refl size)

/-- All children of a new node. -/
theorem fan (hl : l.Pairwise (· < ·)) : Extends size n (EdgeLog.children (l.map (size, ·)) n) := by
  refine .of_log ?_ fun e he => ?_
  · rw [List.map_map]
    exact (List.map_id l).symm ▸ hl
  · obtain ⟨c, -, rfl⟩ := List.mem_map.mp he
    exact .inl (Nat.le_refl size)

end Extends

namespace Pass

variable {p q : Pass} {moved : List Nat} {new : List Node} {owned shared : Links} {submit n : Nat}
  {v : View}

/-! ## Packets with registers and fields -/

theorem fieldLog_snd {parent first count : Nat} :
    (fieldLog parent first count).map (·.2) = List.range' first count := by
  rw [fieldLog, List.map_map]
  exact List.map_id _

theorem registerLog_snd {packet first : Nat} (ce : Bool) {regs : List (String × List String)} :
    (registerLog packet first regs).map (·.2) =
      List.range' first (regs.flatMap (registerNodes ce)).length := by
  induction regs generalizing first with
  | nil => rfl
  | cons reg regs ih =>
    rw [registerLog, List.map_append, List.map_cons, fieldLog_snd, ih, List.flatMap_cons,
      List.length_append, registerNodes, List.length_cons, List.length_map, ← List.range'_succ,
      Nat.add_assoc first 1, Nat.add_comm 1, List.range'_append_1]

/-- What is listed below a packet is numbered without gaps. -/
theorem packetLog_snd {o : Options} {packet : Nat} (ce : Bool) {kind : PacketKind}
    {header : UInt32} {words : Array UInt32} : (packetLog o packet kind header words).map (·.2) =
      List.range' (packet + 1) (packetBelow o ce kind header words).length := by
  unfold packetLog packetBelow
  split
  · rw [fieldLog_snd, List.length_map]
  · exact registerLog_snd ce

/-! ## All nodes -/

/-- Nodes are listed in the order in which they were added. The packets of markers are left aside. -/
structure Ascending (p : Pass) : Prop where
  owned : ∀ v ∈ View.withEvents, ∀ n, (p.owned v n).Pairwise (· < ·)
  shared : ∀ v n, p.nodes.kind? n ≠ some .marker → (p.shared v n).Pairwise (· < ·)
  packets : p.packets.toList.Pairwise (· < ·)
  beginPackets : p.beginPackets.toList.Pairwise (· < ·)
  events : (p.beginEvents.toList.map (·.node)).Pairwise (· < ·)

namespace Ascending

/-- Markers and buffers are of no account. -/
theorem congr (h : p.Ascending) (hnodes : q.nodes = p.nodes) (hedges : q.edges = p.edges)
    (hpackets : q.packets = p.packets) (hbegin : q.beginPackets = p.beginPackets)
    (hevents : q.beginEvents = p.beginEvents) : q.Ascending where
  owned v hv n := by
    rw [Pass.owned, hedges]
    exact h.owned v hv n
  shared v n hn := by
    rw [Pass.shared, hedges]
    exact h.shared v n (hnodes ▸ hn)
  packets := hpackets ▸ h.packets
  beginPackets := hbegin ▸ h.beginPackets
  events := hevents ▸ h.events

theorem grown_congr {c : Pass} (h : (p.grownTo q).Ascending) (hpackets : c.packets = p.packets)
    (hbegin : c.beginPackets = p.beginPackets) (hevents : c.beginEvents = p.beginEvents) :
    (c.grownTo q).Ascending :=
  h.congr rfl rfl hpackets hbegin hevents

theorem regroups (h : p.Ascending) (hp : p.Sound) (hq : p.Regroups q moved new owned shared)
    (howned : ∀ v ∈ View.withEvents, ∀ n, Extends p.nodes.size n ((owned v).children n))
    (hshared : ∀ v n, q.nodes.kind? n ≠ some .marker →
      Extends p.nodes.size n ((shared v).children n)) : (p.grownTo q).Ascending :=
  { h with
    owned := fun v hv n => by
      show (q.owned v n).Pairwise (· < ·)
      rw [hq.owned, if_pos hv]
      refine List.pairwise_append.mpr ⟨(h.owned v hv n).filter _, (howned v hv n).sorted, ?_⟩
      intro c hc c' hc'
      have hold := List.mem_of_mem_filter hc
      obtain ⟨a, b, ha, hb, -⟩ := hp.arranged.fits hold
      exact Nat.lt_of_lt_of_le (Nodes.kind?_lt hb) ((howned v hv n).new (Nodes.kind?_lt ha) c' hc')
    shared := fun v n hn => by
      show (q.shared v n).Pairwise (· < ·)
      rw [hq.shared]
      refine List.pairwise_append.mpr
        ⟨h.shared v n fun hk => hn (hq.kind? hk), (hshared v n hn).sorted, ?_⟩
      intro c hc c' hc'
      have hlt : n < p.nodes.size := by
        rw [← hp.sized v]
        exact EdgeLists.lt_of_mem_shared (Array.mem_def.mpr hc)
      exact Nat.lt_of_lt_of_le (Nodes.kind?_lt (hp.arranged.shares hc))
        ((hshared v n hn).new hlt c' hc') }

/-- A new node below another. -/
theorem adds {node : Node} {views : List View} {parent : Nat} (h : p.Ascending) (hp : p.Sound)
    (hq : p.Adds q [node] (.on views [(parent, p.nodes.size)]) .none) : (p.grownTo q).Ascending :=
  h.regroups hp hq.regroups_nil (fun _ _ _ => Extends.single.on) fun _ _ _ => .nil

/-- A new node that shares the packets that wait. -/
theorem endRun {node : Node} {parent : Nat} (h : p.Ascending) (hp : p.Sound)
    (hq : p.Adds q [node] (.on View.withEvents [(parent, p.nodes.size)])
      (.on View.withEvents (p.packets.toList.map (p.nodes.size, ·)))) : (p.grownTo q).Ascending :=
  h.regroups hp hq.regroups_nil (fun _ _ _ => Extends.single.on)
    fun _ _ _ => (Extends.fan h.packets).on

theorem beginCleared (h : p.Ascending) : p.beginCleared.Ascending :=
  { h with
    beginPackets := .nil
    events := .nil }

theorem pairwise_push {a : Array Nat} (h : a.toList.Pairwise (· < ·)) (hlt : ∀ c ∈ a.toList, c < n) :
    (a.push n).toList.Pairwise (· < ·) := by
  rw [Array.toList_push]
  refine List.pairwise_append.mpr ⟨h, List.pairwise_singleton .., fun c hc c' hc' => ?_⟩
  rw [List.mem_singleton.mp hc']
  exact hlt c hc

theorem events_push {e : PendingEvent} (h : p.Ascending) (hp : p.Sound)
    (he : e.node = p.nodes.size) :
    ((p.beginEvents.push e).toList.map (·.node)).Pairwise (· < ·) := by
  rw [Array.toList_push, List.map_append]
  refine List.pairwise_append.mpr ⟨h.events, List.pairwise_singleton .., fun c hc c' hc' => ?_⟩
  obtain ⟨e', he', rfl⟩ := List.mem_map.mp hc
  obtain ⟨_, hk, -⟩ := hp.events e' he'
  rw [List.mem_singleton.mp hc']
  exact Nat.lt_of_lt_of_eq (Nodes.kind?_lt hk) he.symm

theorem logs {o : Options} {buffer va : Nat} {kind : PacketKind} {header : UInt32}
    {words : Array UInt32} (h : p.Ascending) (hp : p.Sound) (hne : buffer ≠ submit)
    (hq : Logs o submit buffer va kind header words p q) : q.Ascending := by
  have hb : (p.grownTo q).Ascending := by
    refine h.regroups hp hq.adds.regroups_nil (fun v _ n => Extends.on (.of_log ?_ ?_))
      fun v n _ => ?_
    · have hsnd : (packetLog o p.nodes.size kind header words).map (·.2) = _ :=
        packetLog_snd p.onConstantEngine
      rw [hsnd]
      exact List.pairwise_lt_range'
    · exact fun e he => .inl (le_of_mem_packetLog he).1
    · rw [Links.append_apply, EdgeLog.children_append]
      have hsubmit : Extends p.nodes.size n
          ((Links.on View.withPackets [(submit, p.nodes.size)] v).children n) := Extends.single.on
      have hbuffer : Extends p.nodes.size n
          ((Links.on View.withBuffers [(buffer, p.nodes.size)] v).children n) := Extends.single.on
      refine ⟨List.pairwise_append.mpr ⟨hsubmit.sorted, hbuffer.sorted, fun c hc c' hc' => ?_⟩,
        fun hn c hc => (List.mem_append.mp hc).elim (hsubmit.new hn c) (hbuffer.new hn c)⟩
      -- No node is both the submit and the buffer.
      cases List.mem_singleton.mp (Links.mem_on.mp (EdgeLog.mem_children.mp hc)).2
      cases List.mem_singleton.mp (Links.mem_on.mp (EdgeLog.mem_children.mp hc')).2
      exact absurd rfl hne
  refine of_grownTo (c := p.packetWaits p.nodes.size) { hb with
    packets := ?_
    beginPackets := ?_ } hq.context
  · exact pairwise_push h.packets fun c hc => Nodes.kind?_lt (hp.packets c hc)
  · exact pairwise_push h.beginPackets fun c hc => Nodes.kind?_lt (hp.beginPackets c hc)

theorem works {o : Options} {op? : Option UInt8} {words : Array UInt32} (h : p.Ascending)
    (hp : p.Sound) (hq : Works o submit op? words p q) : q.Ascending := by
  cases hq with
  | sync _ _ hq hctx =>
    exact of_grownTo (c := { p with
        packets := #[]
        beginEvents := p.beginEvents.push (p.pendingEvent submit p.nodes.size) })
      { h.endRun hp hq with
        packets := .nil
        events := h.events_push hp rfl } hctx
  | event _ _ hq hctx =>
    exact of_grownTo (c := { p with
        numEvents := p.numEvents + 1
        events := p.events.push p.nodes.size
        packets := #[]
        beginEvents := p.beginEvents.push (p.pendingEvent submit p.nodes.size) })
      { h.endRun hp hq with
        packets := .nil
        events := h.events_push hp rfl } hctx
  | nothing => exact h

/-- Only markers share a packet that marks no call. -/
theorem shares {packet : Nat} (h : p.Ascending) (hp : p.Sound) (hq : p.Shares packet q) :
    q.Ascending := by
  refine of_grownTo (h.regroups hp hq.adds.regroups_nil (fun _ _ _ => .nil) fun v n hn => ?_)
    hq.context
  have hnil : ((Links.on View.withEvents (p.markers.map (·, packet))) v).children n = [] := by
    refine List.eq_nil_iff_forall_not_mem.mpr fun c hc => ?_
    obtain ⟨m, hm, heq⟩ := List.mem_map.mp (Links.mem_on.mp (EdgeLog.mem_children.mp hc)).2
    cases heq
    exact hn (hq.adds.kind? (hp.stacked.markers _ hm))
  rw [hnil]
  exact .nil

theorem obeys {o : Options} {call : CallMarker} (h : p.Ascending) (hp : p.Sound)
    (hs : p.submit = some submit) (hq : Obeys o submit call p q) : q.Ascending := by
  cases hq with
  | beginsBuffer _ hq hctx =>
    obtain ⟨_, howner, -⟩ := hp.callClosed.bufferOwner hs
    have hlt := Nodes.kind?_lt howner
    have hb := h.regroups hp hq (fun v hv n => .on ?_) fun _ _ _ => (Extends.fan h.beginPackets).on
    · refine of_grownTo ?_ hctx
      exact hb.beginCleared.congr rfl rfl rfl rfl rfl
    · rw [EdgeLog.children_cons]
      split
      · rename_i heq
        subst heq
        have hnil : EdgeLog.children ((p.beginEvents.toList.map (·.node)).map (p.nodes.size, ·))
            (p.callClosed.bufferOwner submit) = [] := by
          refine List.eq_nil_iff_forall_not_mem.mpr fun c hc => ?_
          obtain ⟨_, -, heq⟩ := List.mem_map.mp (EdgeLog.mem_children.mp hc)
          exact Nat.ne_of_gt hlt (congrArg Prod.fst heq)
        rw [hnil]
        exact ⟨List.pairwise_singleton .., fun _ c hc => Nat.le_of_eq (List.mem_singleton.mp hc).symm⟩
      · exact .fan h.events
  | endsBuffer _ hq hctx =>
    have hb := h.adds hp hq
    split at hctx
    · refine of_grownTo ?_ hctx
      exact hb.grown_congr rfl rfl rfl
    · refine of_grownTo ?_ hctx
      exact hb.grown_congr rfl rfl rfl
  | beginsLabel _ hq hctx =>
    exact of_grownTo (c := { p.callClosed.pushed p.nodes.size with numLabels := p.numLabels + 1 })
      ((h.adds hp hq).grown_congr rfl rfl rfl) hctx
  | endsLabel => exact h.congr rfl rfl rfl rfl rfl
  | insertsLabel _ hq hctx =>
    exact of_grownTo (c := { p.callClosed with numLabels := p.numLabels + 1 })
      ((h.adds hp hq).grown_congr rfl rfl rfl) hctx
  | opensCall _ hq hctx =>
    have hb := h.adds hp hq
    refine of_grownTo ?_ hctx
    refine hb.grown_congr ?_ ?_ ?_ <;>
      dsimp only [scopeBegun, opened, pushed, scopeEnded, Pass.callClosed]

end Ascending

theorem submitLinks_of_withEvents {engine : Nat} (hv : v ∈ View.withEvents) :
    submitLinks engine submit v = [(rootNode, submit)] := by
  cases v with
  | allEvent | rgp => rfl
  | engine | submit | vulkanCall | vulkanEvent => exact absurd hv (by decide)

/-- Every change keeps the nodes in order. -/
theorem Change.ascending (hc : p.Change q) (hp : p.Sound) (h : p.Ascending) : q.Ascending := by
  cases hc with
  | submitBegins _ _ hq hctx =>
    have hb := h.regroups hp hq.regroups_nil (fun v hv n => ?_) fun _ _ _ => .nil
    · exact of_grownTo (c := { p with submit := some p.nodes.size })
        (hb.congr rfl rfl rfl rfl rfl) hctx
    · rw [submitLinks_of_withEvents hv]
      exact .single
  | enters _ hq =>
    obtain ⟨draw, constant, hctx⟩ := hq.context_eq
    have hb := (h.adds hp hq.adds).beginCleared
    refine of_grownTo (c := { p.beginCleared with
      onConstantEngine := _
      drawIbs := draw
      constantIbs := constant }) ?_ hctx
    exact hb.congr rfl rfl rfl rfl rfl
  | leaves =>
    obtain ⟨_, _, _, _, _, hleft⟩ := p.left_eq
    rw [hleft]
    exact h.beginCleared.congr rfl rfl rfl rfl rfl
  | logs hs hb hq =>
    refine h.logs hp (fun heq => ?_) hq
    obtain ⟨r, hr, hn⟩ := IbStack.top?_mem hb
    have hk := hp.buffers r (ibs_mem hr) _ hn
    rw [heq, hp.submit _ hs] at hk
    cases hk
  | works _ hq => exact h.works hp hq
  | shares _ hq => exact h.shares hp hq
  | marks => exact h.congr rfl rfl rfl rfl rfl
  | obeys hs _ hq => exact h.obeys hp hs hq
  | clears => exact h.beginCleared
  | sorts hs =>
    have hlt := Nodes.kind?_lt (hp.submit _ hs)
    exact { h with
      owned := fun v hv n => by
        have hne : v ≠ .submit := by rintro rfl; exact absurd hv (by decide)
        rw [(sorted_replaces hp.sized hlt).owned, if_neg hne]
        exact h.owned v hv n
      shared := fun v n hn => by
        rw [(sorted_replaces hp.sized hlt).shared]
        exact h.shared v n hn }
  | unmarks => exact h.congr rfl rfl rfl rfl rfl
  | endsState _ hq hctx =>
    exact of_grownTo (c := { p with packets := #[] }) { h.endRun hp hq with packets := .nil } hctx
  | presents hq hctx => exact of_grownTo (h.adds hp hq) hctx
  | submitEnds => exact h.beginCleared.congr rfl rfl rfl rfl rfl

end Pass

end CaptureForest
