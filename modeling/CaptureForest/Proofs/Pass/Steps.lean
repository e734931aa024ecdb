import CaptureForest.Proofs.Pass.Sound
import CaptureForest.Proofs.Memory.Reader

/-! # The steps of a walk

Every step keeps a sound pass sound, and can fail for two causes only: a place or an address that
does not fit, and memory that was not captured. A packet is shared by its submit and by the
innermost buffer, in both views of buffers; nothing else of a step is seen in these views. -/

namespace CaptureForest.Pass

variable {p q r : Pass} {submit : Nat}

/-! ## Operations -/

theorem Sound.marked (h : p.Sound) : p.marked.Sound :=
  { h with stacked := { h.stacked with } }

/-- A run of packets ends with a new event. -/
theorem Sound.endRun {node : Node} (h : p.Sound) (hs : p.submit = some submit)
    (hends : node.kind.endsRun)
    (hq : p.Adds q [node] (.on View.withEvents [(p.innermost submit, p.nodes.size)])
      (.on View.withEvents (p.packets.toList.map (p.nodes.size, ·)))) :
    Sound { p.grownTo q with
      packets := #[]
      beginEvents := p.beginEvents.push (p.pendingEvent submit p.nodes.size) } := by
  obtain ⟨k, hinner, hor⟩ := h.innermost hs
  have hnode : q.nodes.kind? p.nodes.size = some node.kind := hq.kind?_new 0
  have hattached : Attached p.nodes [node] (.on View.withEvents
      [(p.innermost submit, p.nodes.size)]) :=
    .single_on hinner rfl (fun hroot => by rw [hroot] at hends; cases hends)
      (fun v hv => View.mem_withEvents_of_endsRun hends hv)
      fun v hv => View.owns_of_endsRun hv hor hends
  have hb := h.grownTo hq hattached fun {v n c} hc => by
    obtain ⟨c, hc, heq⟩ := List.mem_map.mp (Links.mem_on.mp hc).2
    cases heq
    exact hq.kind? (h.packets c hc)
  exact { hb with
    stacked := { hb.stacked with }
    packets := by simp
    events := fun e he => by
      simp only [Array.toList_push, List.mem_append, List.mem_singleton] at he
      rcases he with he | rfl
      · exact hb.events e he
      · exact ⟨node.kind, hnode, hends⟩
    eventOwners := fun e he => by
      simp only [Array.toList_push, List.mem_append, List.mem_singleton] at he
      rcases he with he | rfl
      · exact hb.eventOwners e he
      · rfl
    eventOrder := fun v hv n => by
      show List.Sublist _ (q.owned v n)
      rw [hq.owned, Links.on_apply, if_pos hv, Array.toList_push, waitingLog, List.map_append,
        EdgeLog.children_append]
      exact (h.eventOrder v hv n).append (.refl _) }

theorem Adds.quiet_endRun {node : Node} {log : EdgeLog} {packets : List Nat}
    (hq : p.Adds q [node] (.on View.withEvents log)
      (.on View.withEvents (packets.map (p.nodes.size, ·))))
    (hends : node.kind.endsRun) (hsite : q.site = p.site) : p.Quiet q := by
  refine hq.quiet (fun x hx => ?_) (fun e he hk => ?_) hsite
  · rw [List.mem_singleton.mp hx]; exact (NodeKind.of_endsRun hends).imp_right .inl
  · obtain ⟨n, -, rfl⟩ := List.mem_map.mp he
    exact Nat.lt_irrefl _ (Nodes.kind?_lt hk)

/-- A packet that marks no call keeps a pass sound, and is not seen in the views of buffers. -/
theorem Works.sound {o : Options} {op? : Option UInt8} {words : Array UInt32}
    (hq : Works o submit op? words p q) (h : p.Sound) (hs : p.submit = some submit) :
    q.Sound ∧ p.Quiet q := by
  cases hq with
  | sync _ _ hq hctx =>
    exact ⟨.of_context (c := { p with
        packets := #[]
        beginEvents := p.beginEvents.push (p.pendingEvent submit p.nodes.size) })
      (h.endRun hs rfl hq) hctx, hq.quiet_endRun rfl (congrArg site hctx :)⟩
  | event _ _ hq hctx =>
    have hb := h.endRun hs rfl hq
    exact ⟨.of_context (c := { p with
        numEvents := p.numEvents + 1
        events := p.events.push p.nodes.size
        packets := #[]
        beginEvents := p.beginEvents.push (p.pendingEvent submit p.nodes.size) })
      { hb with stacked := { hb.stacked with } } hctx, hq.quiet_endRun rfl (congrArg site hctx :)⟩
  | nothing => exact ⟨h, .refl p⟩

/-! ## Packets -/

/-- New shared edges alone keep a pass sound. -/
theorem Sound.shares {shared : Links} (h : p.Sound) (hq : p.Adds q [] .none shared)
    (hctx : q.context = p.context)
    (hshared : ∀ {v n c}, (n, c) ∈ shared v → p.nodes.kind? c = some .packet) : q.Sound :=
  .of_context (h.grownTo hq .nil fun hc => hq.kind? (hshared hc)) hctx

theorem Shares.sound {packet : Nat} (hq : p.Shares packet q) (h : p.Sound)
    (hk : p.nodes.kind? packet = some .packet) : q.Sound ∧ p.Quiet q := by
  obtain ⟨hq, hctx⟩ := hq
  refine ⟨h.shares hq hctx fun {v n c} hc => ?_, ?_⟩
  · obtain ⟨m, -, heq⟩ := List.mem_map.mp (Links.mem_on.mp hc).2
    cases heq
    exact hk
  · rw [← Links.on_nil View.withEvents] at hq
    refine hq.quiet (by simp) (fun e he hk' => ?_) (congrArg site hctx :)
    obtain ⟨m, hm, rfl⟩ := List.mem_map.mp he
    rw [h.stacked.markers m hm] at hk'
    cases hk'

/-- The pass `q` has a new packet of the submit and the buffer, with fields, events and markers
behind it. -/
structure Files (p q : Pass) (submit buffer : Nat) (packet : Node) : Prop where
  nodes : ∃ new : List Node, q.nodes = p.nodes ++ packet :: new ∧
    ∀ node ∈ new, node.kind ∈ [.reg, .field, .event, .sync, .marker]
  shared : ∀ v ∈ View.withBuffers, ∀ n, q.shared v n = p.shared v n ++
    EdgeLog.children [(submit, p.nodes.size), (buffer, p.nodes.size)] n
  submits : ∀ v ∈ View.withEvents, ∀ n, p.nodes.kind? n = some .submit →
    q.shared v n = p.shared v n ++ EdgeLog.children [(submit, p.nodes.size)] n
  site : q.site = p.site

theorem Files.quiet {buffer : Nat} {packet : Node} (h : p.Files q submit buffer packet)
    (h' : q.Quiet r) : p.Files r submit buffer packet := by
  obtain ⟨new, hnew, hkinds⟩ := h.nodes
  obtain ⟨more, hmore, hkinds'⟩ := h'.nodes
  exact {
    nodes := ⟨new ++ more, by rw [hmore, hnew, Nodes.append_append_list, List.cons_append],
      fun node hn => (List.mem_append.mp hn).elim (hkinds node) fun hn => by
        rcases hkinds' node hn with hk | hk | hk <;> simp [hk]⟩
    shared := fun v hv n => (h'.shared v hv n).trans (h.shared v hv n)
    submits := fun v hv n hn =>
      (h'.submits v n (by rw [hnew]; exact Nodes.kind?_append hn)).trans (h.submits v hv n hn)
    site := h'.site.trans h.site }

/-- Below a packet there are registers and fields. -/
theorem of_mem_packetBelow {o : Options} {ce : Bool} {kind : PacketKind} {header : UInt32}
    {words : Array UInt32} {node : Node} (h : node ∈ packetBelow o ce kind header words) :
    ∃ k line, (k = .reg ∨ k = .field) ∧ node = regFieldNode ce k line := by
  unfold packetBelow at h
  split at h
  · obtain ⟨line, -, rfl⟩ := List.mem_map.mp h
    exact ⟨.field, line, .inr rfl, rfl⟩
  · obtain ⟨reg, -, h⟩ := List.mem_flatMap.mp h
    rcases List.mem_cons.mp h with rfl | h
    · exact ⟨.reg, reg.1, .inl rfl, rfl⟩
    · obtain ⟨line, -, rfl⟩ := List.mem_map.mp h
      exact ⟨.field, line, .inr rfl, rfl⟩

theorem packetBelow_kind {o : Options} {ce : Bool} {kind : PacketKind} {header : UInt32}
    {words : Array UInt32} {node : Node} (h : node ∈ packetBelow o ce kind header words) :
    node.kind = .reg ∨ node.kind = .field := by
  obtain ⟨k, line, hk, rfl⟩ := of_mem_packetBelow h
  exact hk

theorem Sound.packetWaits (h : p.Sound) {packet : Nat}
    (hp : p.nodes.kind? packet = some .packet) : (p.packetWaits packet).Sound := by
  have hpush {waiting : Array Nat} (hw : ∀ n ∈ waiting.toList, p.nodes.kind? n = some .packet)
      (n : Nat) (hn : n ∈ (waiting.push packet).toList) : p.nodes.kind? n = some .packet := by
    rw [Array.toList_push, List.mem_append, List.mem_singleton] at hn
    exact hn.elim (hw n) fun hn => hn ▸ hp
  exact { h with
    stacked := { h.stacked with }
    packets := hpush h.packets
    beginPackets := hpush h.beginPackets }

/-- A packet is filed when the submit and the buffer share it. -/
theorem Adds.files {buffer : Nat} {packet : Node} {below : List Node} {owned : Links}
    (hq : p.Adds q (packet :: below) owned (.on View.withPackets [(submit, p.nodes.size)] ++
      .on View.withBuffers [(buffer, p.nodes.size)]))
    (hbelow : ∀ node ∈ below, node.kind ∈ [.reg, .field, .event, .sync, .marker])
    (hsite : q.site = p.site) : p.Files q submit buffer packet where
  nodes := ⟨below, hq.nodes, hbelow⟩
  shared v hv n := by
    have hv' : v ∈ View.withPackets := by revert v; decide
    rw [hq.shared, Links.append_apply, Links.on_apply, Links.on_apply, if_pos hv, if_pos hv']
    rfl
  submits v hv n _ := by
    have hv' : v ∈ View.withPackets ∧ v ∉ View.withBuffers := by revert v; decide
    rw [hq.shared, Links.append_apply, Links.on_apply, Links.on_apply, if_pos hv'.1,
      if_neg hv'.2, List.append_nil]
  site := hsite

namespace Logs

variable {o : Options} {buffer va : Nat} {kind : PacketKind} {header : UInt32}
  {words : Array UInt32}

theorem packet_kind? (h : Logs o submit buffer va kind header words p q) :
    q.nodes.kind? p.nodes.size = some .packet :=
  h.adds.kind?_new 0

theorem site (h : Logs o submit buffer va kind header words p q) : q.site = p.site :=
  (congrArg Pass.site h.context :)

theorem files (h : Logs o submit buffer va kind header words p q) :
    p.Files q submit buffer (packetNode p.onConstantEngine va kind header) :=
  h.adds.files (fun node hn => by rcases packetBelow_kind hn with hk | hk <;> simp [hk]) h.site

/-- A packet that is filed keeps a pass sound. -/
theorem sound (h : Logs o submit buffer va kind header words p q) (hp : p.Sound) : q.Sound := by
  have hb := hp.grownTo h.adds (.packet o _ va kind header words) fun {v n c} hc => by
    rcases List.mem_append.mp hc with hc | hc
    all_goals
      cases List.mem_singleton.mp (Links.mem_on.mp hc).2
      exact h.packet_kind?
  exact .of_context (c := p.packetWaits p.nodes.size) (hb.packetWaits h.packet_kind?) h.context

end Logs

/-- What a packet does to a pass. -/
inductive Runs (o : Options) (m : Reader) (index submit va : Nat) (kind : PacketKind)
    (header : UInt32) (p : Pass) : Pass → Prop
  /-- A packet that marks no call is shared by the markers that are open then. -/
  | works {buffer : Nat} {words : Vector UInt32 (kind.length header)} {r s q : Pass} :
    p.ibs.top? = some buffer → m.words index va (kind.length header) = .ok words →
    callOf? (kind.opcode? header) words.toArray = none →
    Logs o submit buffer va kind (words.get ⟨0, kind.length_pos header⟩) words.toArray p r →
    Works o submit (kind.opcode? header) words.toArray r s → s.Shares p.nodes.size q →
    Runs o m index submit va kind header p q
  /-- Behind a call what was executed before is forgotten. -/
  | obeys {buffer : Nat} {words : Vector UInt32 (kind.length header)} {call : CallMarker}
      {r s : Pass} :
    p.ibs.top? = some buffer → m.words index va (kind.length header) = .ok words →
    callOf? (kind.opcode? header) words.toArray = some call →
    Logs o submit buffer va kind (words.get ⟨0, kind.length_pos header⟩) words.toArray p r →
    Obeys o submit call r.marked s → Runs o m index submit va kind header p s.beginCleared

variable {o : Options} {m : Reader} {index va : Nat} {kind : PacketKind} {header : UInt32}

/-- A packet keeps a pass sound, and what it does beside being filed is not seen in the views of
buffers. -/
theorem Runs.sound (hq : Runs o m index submit va kind header p q) (h : p.Sound)
    (hs : p.submit = some submit) : q.Sound ∧ ∃ buffer word, p.ibs.top? = some buffer ∧
      p.Files q submit buffer (packetNode p.onConstantEngine va kind word) := by
  cases hq with
  | works hb _ _ hr hs' hq =>
    have hsub := (congrArg Site.submit hr.site :).trans hs
    obtain ⟨hsound, hquiet⟩ := hs'.sound (hr.sound h) hsub
    obtain ⟨new, hnew, -⟩ := hquiet.nodes
    obtain ⟨hsound', hquiet'⟩ := hq.sound hsound (by
      rw [hnew]
      exact Nodes.kind?_append hr.packet_kind?)
    exact ⟨hsound', _, _, hb, hr.files.quiet (hquiet.trans hquiet')⟩
  | obeys hb _ _ hr hs' =>
    have hsub := (congrArg Site.submit hr.site :).trans hs
    obtain ⟨hsound, hquiet⟩ := hs'.sound (hr.sound h).marked hsub
    exact ⟨hsound.beginCleared, _, _, hb, hr.files.quiet { hquiet with }⟩

/-- A packet is filed before it is executed. -/
theorem packet_leads {buffer : Nat} (o : Options) (h : p.Sound) (hs : p.submit = some submit)
    (hb : p.ibs.top? = some buffer) (hbuffer : p.nodes.kind? buffer = some .ib)
    (hk : kind ≠ .unknown) :
    Leads (packet o m index va kind header) p
      (fun _ q => Runs o m index submit va kind header p q)
      fun e _ => m.words index va (kind.length header) = .error e ∨
        e = .violation (.packetAddressTooLarge va) ∧ 1 <<< Aux.packetAddressBits ≤ va := by
  unfold packet
  refine leads_ite.mpr ⟨fun hk' => absurd hk' hk, fun _ => ?_⟩
  refine leads_bind.mpr ?_
  unfold openSubmit
  refine leads_bind.mpr (leads_get.mpr ?_)
  rw [hs]
  refine leads_pure.mpr (leads_bind.mpr (leads_get.mpr (leads_bind.mpr ?_)))
  rw [hb]
  refine leads_pure.mpr (leads_bind.mpr (leads_ofExcept.mpr ?_))
  cases hw : m.words index va (kind.length header) with
  | error e => exact .inl rfl
  | ok words =>
    refine file_leads h.sized (Nodes.kind?_lt (h.submit submit hs)) (Nodes.kind?_lt hbuffer)
      (fun q hq _ => Succeeds.leads ?_ fun _ _ => id) fun hva _ => .inr ⟨rfl, hva⟩
    have hqs : q.Sound := hq.sound h
    have hready := hqs.ready ((congrArg Site.submit hq.site :).trans hs)
    -- A packet that marks no call ends in a pass that can still share it.
    have hshare {r : Pass} (hcall : callOf? (kind.opcode? header) words.toArray = none)
        (hr : Works o submit (kind.opcode? header) words.toArray q r) :
        Succeeds (shareWithMarkers p.nodes.size) r fun _ s =>
          Runs o m index submit va kind header p s := by
      obtain ⟨hrs, hquiet⟩ := hr.sound hqs ((congrArg Site.submit hq.site :).trans hs)
      obtain ⟨new, hnew, -⟩ := hquiet.nodes
      have hlt : p.nodes.size < r.nodes.size := by
        rw [hnew]
        exact Nodes.kind?_lt (Nodes.kind?_append hq.packet_kind?)
      refine (shareWithMarkers_succeeds (hrs.ready ((congrArg Site.submit hquiet.site :).trans
        ((congrArg Site.submit hq.site :).trans hs))) hlt).imp fun _ s hs' => ?_
      exact .works hb hw hcall hq hr hs'
    split
    · rename_i op hop
      rw [hop] at hshare
      refine (operation_succeeds hready hqs.waits o op words.toArray).bind ?_
      rintro isCall r (⟨hcall, hr⟩ | ⟨hcall, hr⟩)
      · exact hshare hcall hr
      · exact .obeys hb hw (hop ▸ hcall) hq hr
    · rename_i hop
      exact hshare (by rw [hop]; rfl) .nothing

end CaptureForest.Pass
