import CaptureForest.Proofs.Pass.Buffer
import CaptureForest.Proofs.Pass.Submit

/-! # Submits apart

Nodes are numbered in the order of the walk, so a submit is told by the numbers of its nodes. All
that a pass remembers has come since the open submit began (`Pass.Recent`), and so no edge leads
from one submit into another (`Pass.Apart`); only the edges from the root and from the engines,
which are of no submit, do. -/

namespace CaptureForest

/-- No submit begins between two nodes. -/
def Nodes.SameSubmit (nodes : Nodes) (a b : Nat) : Prop :=
  ∀ s, nodes.kind? s = some .submit → (s ≤ a ↔ s ≤ b)

namespace Nodes.SameSubmit

variable {nodes : Nodes} {new : List Node} {a b c : Nat}

theorem refl : nodes.SameSubmit a a := fun _ _ => Iff.rfl

theorem trans (h : nodes.SameSubmit a b) (h' : nodes.SameSubmit b c) : nodes.SameSubmit a c :=
  fun s hs => (h s hs).trans (h' s hs)

theorem symm (h : nodes.SameSubmit a b) : nodes.SameSubmit b a := fun s hs => (h s hs).symm

/-- A submit that begins later is behind both nodes. -/
theorem append (h : nodes.SameSubmit a b) (ha : a < nodes.size) (hb : b < nodes.size) :
    Nodes.SameSubmit (nodes ++ new) a b := by
  intro s hs
  rcases Nat.lt_or_ge s nodes.size with hlt | hge
  · rw [kind?, getElem?_append_old hlt] at hs
    exact h s hs
  · omega

/-- Two submits are the same if no other begins between them. -/
theorem eq (h : nodes.SameSubmit a b) (ha : nodes.kind? a = some .submit)
    (hb : nodes.kind? b = some .submit) : a = b :=
  Nat.le_antisymm ((h a ha).mp (Nat.le_refl a)) ((h b hb).mpr (Nat.le_refl b))

end Nodes.SameSubmit

namespace Pass

variable {p q : Pass} {moved : List Nat} {new : List Node} {owned shared : Links} {submit n : Nat}

/-- The node has come since the open submit began. -/
def Recent (p : Pass) (n : Nat) : Prop := ∃ s, p.submit = some s ∧ s ≤ n

/-- What a pass remembers is recent, and edges stay in their submits. -/
structure Apart (p : Pass) : Prop where
  latest : ∀ {s s'}, p.submit = some s → p.nodes.kind? s' = some .submit → s' ≤ s
  buffers : ∀ r ∈ p.drawIbs ++ p.constantIbs, ∀ n ∈ r.toList, p.Recent n
  stacked : p.Stacked p.Recent
  packets : ∀ n ∈ p.packets.toList, p.Recent n
  beginPackets : ∀ n ∈ p.beginPackets.toList, p.Recent n
  events : ∀ e ∈ p.beginEvents.toList, p.Recent e.node
  owned : ∀ {v n c}, c ∈ p.owned v n → p.nodes.kind? n ∉ [some .root, some .engine] →
    p.nodes.SameSubmit n c
  shared : ∀ {v n c}, c ∈ p.shared v n → p.nodes.SameSubmit n c

/-- The nodes of a packet are new, and so are those that own them. -/
theorem le_of_mem_fieldLog {parent first count : Nat} {e : Nat × Nat}
    (h : e ∈ fieldLog parent first count) : e.1 = parent ∧ first ≤ e.2 := by
  obtain ⟨c, hc, rfl⟩ := List.mem_map.mp h
  exact ⟨rfl, (List.mem_range'_1.mp hc).1⟩

theorem le_of_mem_registerLog {packet first : Nat} {regs : List (String × List String)}
    {e : Nat × Nat} (h : e ∈ registerLog packet first regs) (hle : packet ≤ first) :
    packet ≤ e.1 ∧ packet ≤ e.2 := by
  induction regs generalizing first with
  | nil => cases h
  | cons reg regs ih =>
    rcases List.mem_append.mp h with h | h
    · rcases List.mem_cons.mp h with rfl | h
      · exact ⟨Nat.le_refl packet, hle⟩
      · obtain ⟨heq, hle'⟩ := le_of_mem_fieldLog h
        omega
    · exact ih h (by omega)

theorem le_of_mem_packetLog {o : Options} {packet : Nat} {kind : PacketKind} {header : UInt32}
    {words : Array UInt32} {e : Nat × Nat} (h : e ∈ packetLog o packet kind header words) :
    packet ≤ e.1 ∧ packet ≤ e.2 := by
  unfold packetLog at h
  split at h
  · obtain ⟨heq, hle⟩ := le_of_mem_fieldLog h
    omega
  · exact le_of_mem_registerLog h (Nat.le_succ packet)

/-- A packet that is filed is not seen below older nodes. -/
theorem Logs.owned_old {o : Options} {buffer va n : Nat} {kind : PacketKind}
    {header : UInt32} {words : Array UInt32} {v : View}
    (h : Logs o submit buffer va kind header words p q)
    (hn : n < p.nodes.size) : q.owned v n = p.owned v n := by
  have hnone : (Links.on View.withPackets (packetLog o p.nodes.size kind header words)
      v).children n = [] := by
    refine List.eq_nil_iff_forall_not_mem.mpr fun c hc => ?_
    have hle := (le_of_mem_packetLog (Links.mem_on.mp (EdgeLog.mem_children.mp hc)).2).1
    exact Nat.not_lt.mpr hle hn
  rw [h.adds.owned, hnone, List.append_nil]

/-- A node that is new is recent. -/
theorem Sound.recent (h : p.Sound) (hs : p.submit = some submit) (hn : p.nodes.size ≤ n) :
    p.Recent n :=
  ⟨submit, hs, Nat.le_trans (Nat.le_of_lt (Nodes.kind?_lt (h.submit submit hs))) hn⟩

/-- If no submit has begun since, two recent nodes are of one submit. -/
theorem Recent.sameSubmit {nodes : Nodes} {a b : Nat} (ha : p.Recent a) (hb : p.Recent b)
    (hlatest : ∀ {s s'}, p.submit = some s → nodes.kind? s' = some .submit → s' ≤ s) :
    nodes.SameSubmit a b := by
  obtain ⟨s, hs, ha⟩ := ha
  obtain ⟨s', hs', hb⟩ := hb
  obtain rfl : s = s' := Option.some.inj (hs.symm.trans hs')
  intro t ht
  have hle := hlatest hs ht
  omega

namespace Apart

/-- New edges between recent nodes keep the submits apart. -/
theorem regroups (h : p.Apart) (hp : p.Sound) (hq : p.Regroups q moved new owned shared)
    (hnew : ∀ s, p.submit = some s → ∀ node ∈ new, node.kind ≠ .submit)
    (howned : ∀ {v n c}, (n, c) ∈ owned v →
      q.nodes.kind? n ∈ [some .root, some .engine] ∨ p.Recent n ∧ p.Recent c)
    (hshared : ∀ {v n c}, (n, c) ∈ shared v → p.Recent n ∧ p.Recent c) :
    (p.grownTo q).Apart := by
  have hlatest {s s' : Nat} (hs : p.submit = some s) (hs' : q.nodes.kind? s' = some .submit) :
      s' ≤ s := by
    rw [hq.nodes] at hs'
    rcases Nat.lt_or_ge s' p.nodes.size with hlt | hge
    · rw [Nodes.kind?, Nodes.getElem?_append_old hlt] at hs'
      exact h.latest hs hs'
    · obtain ⟨i, rfl⟩ := Nat.exists_eq_add_of_le hge
      rw [Nodes.kind?_append_new] at hs'
      obtain ⟨node, hi, hk⟩ := Option.map_eq_some_iff.mp hs'
      exact absurd hk (hnew s hs node (List.mem_of_getElem? hi))
  have hold {a b : Nat} (h : p.nodes.SameSubmit a b) (ha : a < p.nodes.size)
      (hb : b < p.nodes.size) : q.nodes.SameSubmit a b := by
    rw [hq.nodes]
    exact h.append ha hb
  exact {
    latest := hlatest
    buffers := h.buffers
    stacked := { h.stacked with }
    packets := h.packets
    beginPackets := h.beginPackets
    events := h.events
    owned := fun {v n c} hc hn => by
      replace hc : c ∈ q.owned v n := hc
      rw [hq.owned, List.mem_append, EdgeLog.mem_children] at hc
      rcases hc with hc | hc
      · have hc : c ∈ p.owned v n := by
          split at hc
          · exact List.mem_of_mem_filter hc
          · exact hc
        obtain ⟨a, b, ha, hb, -⟩ := hp.arranged.fits hc
        have hkind : q.nodes.kind? n = p.nodes.kind? n := by rw [hq.kind? ha, ha]
        exact hold (h.owned hc (hkind ▸ hn)) (Nodes.kind?_lt ha) (Nodes.kind?_lt hb)
      · obtain ⟨hn', hc⟩ := (howned hc).resolve_left hn
        exact hn'.sameSubmit hc hlatest
    shared := fun {v n c} hc => by
      replace hc : c ∈ q.shared v n := hc
      rw [hq.shared, List.mem_append, EdgeLog.mem_children] at hc
      rcases hc with hc | hc
      · refine hold (h.shared hc) ?_ (Nodes.kind?_lt (hp.arranged.shares hc))
        rw [← hp.sized v]
        exact EdgeLists.lt_of_mem_shared (Array.mem_def.mpr hc)
      · exact (hshared hc).1.sameSubmit (hshared hc).2 hlatest }

/-! ## What is remembered -/

/-- Between submits no packet waits. -/
theorem packets_eq_empty (h : p.Apart) (hs : p.submit = none) : p.packets = #[] := by
  refine Array.toList_eq_nil_iff.mp (List.eq_nil_iff_forall_not_mem.mpr fun n hn => ?_)
  obtain ⟨s, hs', -⟩ := h.packets n hn
  rw [hs] at hs'
  cases hs'

theorem beginCleared (h : p.Apart) : p.beginCleared.Apart :=
  { h with
    stacked := { h.stacked with }
    beginPackets := by simp [Pass.beginCleared]
    events := by simp [Pass.beginCleared] }

theorem innermost (h : p.Apart) (hs : p.submit = some submit) : p.Recent (p.innermost submit) := by
  unfold Pass.innermost
  cases hm : p.markers with
  | nil => exact ⟨submit, hs, Nat.le_refl submit⟩
  | cons m ms => exact h.stacked.markers m (by simp [hm])

theorem bufferOwner (h : p.Apart) (hs : p.submit = some submit) :
    p.Recent (p.bufferOwner submit) := by
  unfold Pass.bufferOwner
  split
  · cases hscope : p.scope with
    | none => exact ⟨submit, hs, Nat.le_refl submit⟩
    | some s => exact h.stacked.scope s hscope
  · exact ⟨submit, hs, Nat.le_refl submit⟩

theorem recent_ibs (h : p.Apart) (hn : n ∈ p.ibs.nodes) : p.Recent n := by
  obtain ⟨r, hr, hn⟩ := List.mem_flatMap.mp hn
  exact h.buffers r (ibs_mem hr) n hn

theorem ibOwner (h : p.Apart) (hs : p.submit = some submit) (o : Options) (kind : IbKind) :
    p.Recent (ibOwner o p submit kind) := by
  rcases ibOwner_mem o p submit kind with heq | hmem
  · exact ⟨submit, hs, Nat.le_of_eq heq.symm⟩
  · exact h.recent_ibs hmem

/-- As long as runs are only left or get recent nodes, buffers are recent. -/
theorem modifyIbs (h : p.Apart) {f : IbStack → IbStack}
    (hf : ∀ s : IbStack, (∀ r ∈ s, ∀ n ∈ r.toList, p.Recent n) →
      ∀ r ∈ f s, ∀ n ∈ r.toList, p.Recent n) : (p.modifyIbs f).Apart := by
  have hdraw := fun r hr => h.buffers r (List.mem_append_left _ hr)
  have hconstant := fun r hr => h.buffers r (List.mem_append_right _ hr)
  unfold Pass.modifyIbs
  split
  · exact { h with
      stacked := { h.stacked with }
      buffers := fun r hr => (List.mem_append.mp hr).elim (hdraw r) (hf _ hconstant r) }
  · exact { h with
      stacked := { h.stacked with }
      buffers := fun r hr => (List.mem_append.mp hr).elim (hf _ hdraw r) (hconstant r) }

theorem entered {kind : IbKind} (h : p.Apart) (hn : p.Recent n) : (p.entered n kind).Apart := by
  refine beginCleared (h.modifyIbs fun s hs r hr m hm => ?_)
  rcases IbStack.mem_push hr hm with rfl | ⟨r', hr', hm'⟩
  · exact hn
  · exact hs r' hr' m hm'

theorem left (h : p.Apart) : p.popped.scopeLeft.beginCleared.Apart := by
  have hpopped : p.popped.Apart := by
    have htail := h.modifyIbs fun s hs r hr => hs r (List.mem_of_mem_tail hr)
    exact { htail with stacked := htail.stacked.callClosed }
  have hstacked := hpopped.stacked.scopeLeft rfl
  obtain ⟨scope, markers, internal, heq⟩ := p.popped.scopeLeft_eq
  rw [heq] at hstacked ⊢
  exact beginCleared { hpopped with stacked := hstacked }

/-! ## Changes -/

theorem submitBegins {index engine : Nat} {s : Submit} (h : p.Apart) (hp : p.Sound)
    (hnone : p.submit = none) (hengine : p.nodes.kind? engine = some .engine)
    (hq : p.Adds q [submitNode index s] (submitLinks engine p.nodes.size) .none)
    (hctx : q.context = { p.context with submit := some p.nodes.size }) : q.Apart := by
  have hroot : q.nodes.kind? rootNode = some .root := hq.kind? (hp.arranged.root.mpr rfl)
  have hb : (p.grownTo q).Apart := by
    refine h.regroups hp hq.regroups_nil (fun s hs => ?_) (fun {v n c} hc => .inl ?_) nofun
    · rw [hnone] at hs
      cases hs
    · rcases List.mem_append.mp hc with hc | hc
      · cases List.mem_singleton.mp (Links.mem_on.mp hc).2
        simp [hq.kind? hengine]
      · cases List.mem_singleton.mp (Links.mem_on.mp hc).2
        simp [hroot]
  -- Nothing is remembered, as no submit was open.
  have hnot {n : Nat} (hn : p.Recent n) : False := by
    obtain ⟨s, hs, -⟩ := hn
    rw [hnone] at hs
    cases hs
  exact of_grownTo (c := { p with submit := some p.nodes.size }) {
    latest := fun {s s'} hs hs' => by
      cases hs
      have hlt : s' < q.nodes.size := Nodes.kind?_lt hs'
      rw [hq.size] at hlt
      exact Nat.le_of_lt_succ hlt
    buffers := fun r hr n hn => (hnot (h.buffers r hr n hn)).elim
    stacked := {
      markers := fun m hm => (hnot (h.stacked.markers m hm)).elim
      aligned := h.stacked.aligned
      openCall := h.stacked.openCall
      scope := fun s hs => (hnot (h.stacked.scope s hs)).elim }
    packets := fun n hn => (hnot (h.packets n hn)).elim
    beginPackets := fun n hn => (hnot (h.beginPackets n hn)).elim
    events := fun e he => (hnot (h.events e he)).elim
    owned := hb.owned
    shared := hb.shared } hctx

/-- A new node below a recent one. -/
theorem attach {node : Node} {parent : Nat} {views : List View} (h : p.Apart) (hp : p.Sound)
    (hs : p.submit = some submit) (hparent : p.Recent parent)
    (hq : p.Adds q [node] (.on views [(parent, p.nodes.size)]) shared)
    (hnode : node.kind ≠ .submit)
    (hshared : ∀ {v n c}, (n, c) ∈ shared v → p.Recent n ∧ p.Recent c) : (p.grownTo q).Apart := by
  refine h.regroups hp hq.regroups_nil (by simpa using fun _ _ => hnode) (fun hc => .inr ?_) hshared
  cases List.mem_singleton.mp (Links.mem_on.mp hc).2
  exact ⟨hparent, hp.recent hs (Nat.le_refl _)⟩

/-- A new marker below the innermost one, when the open call is closed. -/
theorem attachMarker {node : Node} (h : p.Apart) (hp : p.Sound) (hs : p.submit = some submit)
    (hk : node.kind = .marker)
    (hq : p.Adds q [node] (.on View.withEvents [(p.callClosed.innermost submit, p.nodes.size)])
      .none) : (p.callClosed.grownTo q).Apart := by
  have hclosed : p.callClosed.Apart := { h with stacked := h.stacked.callClosed }
  exact hclosed.attach hp.callClosed hs (hclosed.innermost hs)
    (hq.congr (s := p.callClosed) rfl rfl rfl rfl) (by simp [hk])
    fun hc => absurd hc Links.not_mem_none

/-- A run of packets gets a node. -/
theorem endRun {node : Node} {parent : Nat} (h : p.Apart) (hp : p.Sound)
    (hs : p.submit = some submit) (hparent : p.Recent parent)
    (hq : p.Adds q [node] (.on View.withEvents [(parent, p.nodes.size)])
      (.on View.withEvents (p.packets.toList.map (p.nodes.size, ·))))
    (hnode : node.kind ≠ .submit) :
    Apart { p.grownTo q with packets := #[] } := by
  have hb := h.attach hp hs hparent hq hnode fun {v n c} hc => by
    obtain ⟨c, hc, heq⟩ := List.mem_map.mp (Links.mem_on.mp hc).2
    cases heq
    exact ⟨hp.recent hs (Nat.le_refl _), h.packets c hc⟩
  exact { hb with stacked := { hb.stacked with }, packets := by simp }

theorem works {o : Options} {op? : Option UInt8} {words : Array UInt32} (h : p.Apart)
    (hp : p.Sound) (hs : p.submit = some submit) (hq : Works o submit op? words p q) :
    q.Apart := by
  -- An event waits from now on for a command buffer.
  have hpush (e : PendingEvent)
      (he : e ∈ (p.beginEvents.push (p.pendingEvent submit p.nodes.size)).toList) :
      p.Recent e.node := by
    rw [Array.toList_push, List.mem_append, List.mem_singleton] at he
    rcases he with he | rfl
    · exact h.events e he
    · exact hp.recent hs (Nat.le_refl _)
  cases hq with
  | sync _ _ hq hctx =>
    have hb := h.endRun hp hs (h.innermost hs) hq nofun
    exact of_grownTo (c := { p with
        packets := #[]
        beginEvents := p.beginEvents.push (p.pendingEvent submit p.nodes.size) })
      { hb with stacked := { hb.stacked with }, events := hpush } hctx
  | event _ _ hq hctx =>
    have hb := h.endRun hp hs (h.innermost hs) hq nofun
    exact of_grownTo (c := { p with
        numEvents := p.numEvents + 1
        events := p.events.push p.nodes.size
        packets := #[]
        beginEvents := p.beginEvents.push (p.pendingEvent submit p.nodes.size) })
      { hb with stacked := { hb.stacked with }, events := hpush } hctx
  | nothing => exact h

theorem logs {o : Options} {buffer va : Nat} {kind : PacketKind} {header : UInt32}
    {words : Array UInt32} (h : p.Apart) (hp : p.Sound) (hs : p.submit = some submit)
    (hbuffer : p.Recent buffer) (hq : Logs o submit buffer va kind header words p q) :
    q.Apart := by
  have hnew : p.Recent p.nodes.size := hp.recent hs (Nat.le_refl _)
  have hb : (p.grownTo q).Apart := by
    refine h.regroups hp hq.adds.regroups_nil (fun _ _ node hn => ?_) (fun hc => .inr ?_)
      fun {v n c} hc => ?_
    · rcases List.mem_cons.mp hn with rfl | hn
      · exact nofun
      · rcases packetBelow_kind hn with hk | hk <;> rw [hk] <;> exact nofun
    · obtain ⟨hn, hc⟩ := le_of_mem_packetLog (Links.mem_on.mp hc).2
      exact ⟨hp.recent hs hn, hp.recent hs hc⟩
    · rcases List.mem_append.mp hc with hc | hc
      · cases List.mem_singleton.mp (Links.mem_on.mp hc).2
        exact ⟨⟨submit, hs, Nat.le_refl submit⟩, hnew⟩
      · cases List.mem_singleton.mp (Links.mem_on.mp hc).2
        exact ⟨hbuffer, hnew⟩
  have hpush {waiting : Array Nat} (hw : ∀ n ∈ waiting.toList, p.Recent n)
      (n : Nat) (hn : n ∈ (waiting.push p.nodes.size).toList) : p.Recent n := by
    rw [Array.toList_push, List.mem_append, List.mem_singleton] at hn
    exact hn.elim (hw n) fun hn => hn ▸ hnew
  exact of_grownTo (c := p.packetWaits p.nodes.size) { hb with
    stacked := { hb.stacked with }
    packets := hpush h.packets
    beginPackets := hpush h.beginPackets } hq.context

theorem obeys {o : Options} {call : CallMarker} (h : p.Apart) (hp : p.Sound)
    (hs : p.submit = some submit) (hq : Obeys o submit call p q) : q.Apart := by
  have hnew : p.Recent p.nodes.size := hp.recent hs (Nat.le_refl _)
  have hclosed : p.callClosed.Apart := { h with stacked := h.stacked.callClosed }
  cases hq with
  | beginsBuffer _ hq hctx =>
    have hb := (hclosed.regroups hp.callClosed (q := q) { hq with } (by simp [callNode])
      (fun {v n c} hc => .inr ?_) fun {v n c} hc => ?_).beginCleared
    · refine of_grownTo ?_ hctx
      rw [opened_grownTo]
      exact { hb with stacked := (hb.stacked.scopeEntered rfl).opened hnew }
    · rcases List.mem_cons.mp (Links.mem_on.mp hc).2 with heq | hc
      · cases heq
        exact ⟨hclosed.bufferOwner hs, hnew⟩
      · obtain ⟨c, hc, heq⟩ := List.mem_map.mp hc
        cases heq
        obtain ⟨e, he, rfl⟩ := List.mem_map.mp hc
        exact ⟨hnew, h.events e he⟩
    · obtain ⟨c, hc, heq⟩ := List.mem_map.mp (Links.mem_on.mp hc).2
      cases heq
      exact ⟨hnew, h.beginPackets c hc⟩
  | endsBuffer _ hq hctx =>
    have hb := h.attachMarker hp hs rfl hq
    split at hctx
    · exact of_grownTo (c := p.callClosed.levelClosed)
        { hb with stacked := hb.stacked.levelClosed rfl } hctx
    · exact of_grownTo hb hctx
  | beginsLabel _ hq hctx =>
    have hb := h.attachMarker hp hs rfl hq
    exact of_grownTo (c := { p.callClosed.pushed p.nodes.size with numLabels := p.numLabels + 1 })
      { hb with stacked := { hb.stacked.pushed hnew rfl with } } hctx
  | endsLabel => exact { hclosed with stacked := hclosed.stacked.labelClosed rfl }
  | insertsLabel _ hq hctx =>
    have hb := h.attachMarker hp hs rfl hq
    exact of_grownTo (c := { p.callClosed with numLabels := p.numLabels + 1 })
      { hb with stacked := { hb.stacked with } } hctx
  | opensCall _ hq hctx =>
    have hb := h.attachMarker hp hs rfl hq
    refine of_grownTo ?_ hctx
    rw [scopeBegun_grownTo, opened_grownTo]
    exact { hb with stacked := (hb.stacked.scopeEnded.opened hnew).scopeBegun _ fun _ => hnew }

end Apart

theorem entered_grownTo {kind : IbKind} :
    (p.entered n kind).grownTo q = (p.grownTo q).entered n kind := by
  unfold entered modifyIbs
  show grownTo (Pass.beginCleared (if p.onConstantEngine then _ else _)) q =
    Pass.beginCleared (if p.onConstantEngine then _ else _)
  split <;> rfl

/-- No change leads from one submit into another. -/
theorem Change.apart (hc : p.Change q) (hp : p.Sound) (h : p.Apart) : q.Apart := by
  cases hc with
  | @submitBegins _ s _ _ hnone hlookup hq hctx =>
    obtain ⟨before, after, heq, -⟩ := List.lookup_eq_some_iff.mp hlookup
    exact h.submitBegins hp hnone (hp.engines s.engine _ (by simp [heq])) hq hctx
  | @enters _ o submit ibIndex ib kind hs hq =>
    have hon : (p.onEngine ib.constantEngine).Apart := { h with stacked := { h.stacked with } }
    have hsound : (p.onEngine ib.constantEngine).Sound := { hp with stacked := { hp.stacked with } }
    have hb := hon.attach hsound hs (hon.ibOwner hs o kind)
      (hq.adds.congr (s := p.onEngine ib.constantEngine) rfl rfl rfl rfl) (by simp [bufferNode])
      fun hc => absurd hc Links.not_mem_none
    refine of_grownTo ?_ hq.context
    rw [entered_grownTo]
    exact hb.entered (hsound.recent hs (Nat.le_refl _))
  | leaves => exact h.left
  | logs hs hbuffer hq =>
    obtain ⟨r, hr, hn⟩ := IbStack.top?_mem hbuffer
    exact h.logs hp hs (h.buffers r (ibs_mem hr) _ hn) hq
  | works hs hq => exact h.works hp hs hq
  | shares hpacket hq =>
    refine of_grownTo (h.regroups hp hq.adds.regroups_nil (by simp)
      (fun hc => absurd hc Links.not_mem_none) fun {v n c} hc => ?_) hq.context
    obtain ⟨m, hm, heq⟩ := List.mem_map.mp (Links.mem_on.mp hc).2
    cases heq
    exact ⟨h.stacked.markers _ hm, h.beginPackets _ (Array.mem_def.mp hpacket)⟩
  | marks => exact { h with stacked := { h.stacked with } }
  | obeys hs _ hq => exact h.obeys hp hs hq
  | clears => exact h.beginCleared
  | sorts hs =>
    have hlt := Nodes.kind?_lt (hp.submit _ hs)
    exact { h with
      stacked := { h.stacked with }
      owned := fun {v n c} hc => h.owned ((sorted_perm hp.sized hlt v n).mem_iff.mp hc)
      shared := fun {v n c} hc => h.shared ((sorted_replaces hp.sized hlt).shared v n ▸ hc) }
  | unmarks => exact { h with stacked := ⟨by simp [Pass.unmarked], rfl, by simp [Pass.unmarked],
      by simp [Pass.unmarked]⟩ }
  | endsState hs hq hctx =>
    exact of_grownTo (c := { p with packets := #[] })
      (h.endRun hp hs ⟨_, hs, Nat.le_refl _⟩ hq (by simp [stateNode])) hctx
  | presents hq hctx =>
    refine of_grownTo (h.regroups hp hq.regroups_nil (by simp [presentNode])
      (fun hc => .inl ?_) fun hc => absurd hc Links.not_mem_none) hctx
    cases List.mem_singleton.mp (Links.mem_on.mp hc).2
    simp [hq.kind? (hp.arranged.root.mpr rfl)]
  | submitEnds hpackets hmarkers hscope =>
    exact {
      latest := fun hs => by cases hs
      buffers := by simp [submitClosed, Pass.beginCleared]
      stacked := {
        markers := fun m hm => by simp [submitClosed, Pass.beginCleared, hmarkers] at hm
        aligned := h.stacked.aligned
        openCall := h.stacked.openCall
        scope := fun s hs => by simp [submitClosed, Pass.beginCleared, hscope] at hs }
      packets := fun n hn => by simp [submitClosed, Pass.beginCleared, hpackets] at hn
      beginPackets := by simp [Pass.beginCleared]
      events := by simp [Pass.beginCleared]
      owned := h.owned
      shared := h.shared }

end Pass

end CaptureForest
