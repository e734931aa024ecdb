import CaptureForest.Proofs.Pass.Sound

/-! # Buffers that are entered and left

A buffer that is entered gets a node below the submit or another buffer, and stands on the stack of
its engine until the run that it belongs to ends. -/

namespace CaptureForest

namespace IbRun

variable {r : IbRun}

theorem start_mem : r.start ∈ r.toList := by simp [toList]

theorem top_mem : r.top ∈ r.toList := by
  unfold top toList
  cases h : r.chained.back? with
  | none => simp
  | some n => simp [Array.mem_of_back? h]

end IbRun

namespace IbStack

variable {s : IbStack} {n node : Nat}

theorem top?_mem (h : s.top? = some n) : ∃ r ∈ s, n ∈ r.toList := by
  cases s with
  | nil => cases h
  | cons r rs => cases h; exact ⟨r, List.mem_cons_self, IbRun.top_mem⟩

theorem owner?_mem (h : s.owner? = some n) : ∃ r ∈ s, n ∈ r.toList := by
  cases s with
  | nil => cases h
  | cons r rs =>
    have h : (if r.startsChained then none else some r.start) = some n := h
    split at h
    · cases h
    · cases h; exact ⟨r, List.mem_cons_self, IbRun.start_mem⟩

theorem mem_push {kind : IbKind} {r : IbRun} (hr : r ∈ s.push node kind) (hn : n ∈ r.toList) :
    n = node ∨ ∃ r' ∈ s, n ∈ r'.toList := by
  have hnew : r = { start := node } ∨ r ∈ s → n = node ∨ ∃ r' ∈ s, n ∈ r'.toList := by
    rintro (rfl | hr)
    · exact .inl (by simpa [IbRun.toList] using hn)
    · exact .inr ⟨r, hr, hn⟩
  cases kind with
  | normal => exact hnew (List.mem_cons.mp hr)
  | call => exact hnew (List.mem_cons.mp hr)
  | chain =>
    cases s with
    | nil =>
      rw [List.mem_singleton.mp hr] at hn
      exact .inl (by simpa [IbRun.toList] using hn)
    | cons r' rs =>
      rcases List.mem_cons.mp hr with rfl | hr
      · simp only [IbRun.toList, Array.toList_push, List.reverse_append, List.reverse_cons,
          List.reverse_nil, List.nil_append, List.cons_append, List.mem_cons] at hn
        exact hn.imp_right fun hn => ⟨r', List.mem_cons_self, hn⟩
      · exact .inr ⟨r, List.mem_cons_of_mem _ hr, hn⟩

theorem mem_nodes_push {kind : IbKind} : n ∈ (s.push node kind).nodes ↔ n = node ∨ n ∈ s.nodes := by
  cases kind with
  | normal | call => simp [push, nodes, IbRun.toList]
  | chain => cases s <;> simp [push, nodes, IbRun.toList]

end IbStack

namespace Pass

variable {p q r : Pass} {submit : Nat}

theorem modifyIbs_nodes {f : IbStack → IbStack} : (p.modifyIbs f).nodes = p.nodes := by
  unfold modifyIbs; split <;> rfl

theorem modifyIbs_edges {f : IbStack → IbStack} : (p.modifyIbs f).edges = p.edges := by
  unfold modifyIbs; split <;> rfl

theorem modifyIbs_engines {f : IbStack → IbStack} : (p.modifyIbs f).engines = p.engines := by
  unfold modifyIbs; split <;> rfl

theorem modifyIbs_submit {f : IbStack → IbStack} : (p.modifyIbs f).submit = p.submit := by
  unfold modifyIbs; split <;> rfl

/-- Only the stacks of buffers change. -/
theorem modifyIbs_eq (p : Pass) (f : IbStack → IbStack) : ∃ draw constant,
    p.modifyIbs f = { p with drawIbs := draw, constantIbs := constant } := by
  unfold modifyIbs
  split
  · exact ⟨p.drawIbs, f p.constantIbs, rfl⟩
  · exact ⟨f p.drawIbs, p.constantIbs, rfl⟩

/-- Where a buffer is entered, what is remembered of packets and markers stays, but for what waits
for a command buffer. -/
theorem Enters.context_eq {o : Options} {ibIndex : Nat} {ib : IndirectBuffer} {kind : IbKind}
    (h : Enters o submit ibIndex ib kind p q) : ∃ draw constant, q.context =
      { p.beginCleared.context with
        onConstantEngine := ib.constantEngine
        drawIbs := draw
        constantIbs := constant } := by
  obtain ⟨draw, constant, heq⟩ := (p.onEngine ib.constantEngine).modifyIbs_eq
    (IbStack.push · p.nodes.size kind)
  refine ⟨draw, constant, h.context.trans ?_⟩
  rw [entered, heq]
  rfl

theorem ibs_mem {r : IbRun} (h : r ∈ p.ibs) : r ∈ p.drawIbs ++ p.constantIbs := by
  unfold ibs at h
  split at h
  · exact List.mem_append_right _ h
  · exact List.mem_append_left _ h

theorem mem_modifyIbs {f : IbStack → IbStack} {r : IbRun}
    (h : r ∈ (p.modifyIbs f).drawIbs ++ (p.modifyIbs f).constantIbs) :
    r ∈ p.drawIbs ++ p.constantIbs ∨ r ∈ f p.ibs := by
  unfold modifyIbs at h
  unfold ibs
  split at h
  · rw [if_pos ‹_›]
    exact (List.mem_append.mp h).imp (List.mem_append_left _) id
  · rw [if_neg ‹_›]
    exact (List.mem_append.mp h).symm.imp (List.mem_append_right _) id

/-- A buffer is listed below the submit or below an open buffer. -/
theorem ibOwner_mem (o : Options) (p : Pass) (submit : Nat) (kind : IbKind) :
    ibOwner o p submit kind = submit ∨ ibOwner o p submit kind ∈ p.ibs.nodes := by
  have htop : p.ibs.top?.getD submit = submit ∨ p.ibs.top?.getD submit ∈ p.ibs.nodes := by
    cases ht : p.ibs.top? with
    | none => exact .inl rfl
    | some n => exact .inr (List.mem_flatMap.mpr (IbStack.top?_mem ht))
  unfold ibOwner
  dsimp only
  split
  · cases ho : p.ibs.owner? with
    | none => exact htop
    | some n => exact .inr (List.mem_flatMap.mpr (IbStack.owner?_mem ho))
  · exact htop

theorem Sound.kind?_ibs (h : p.Sound) {n : Nat} (hn : n ∈ p.ibs.nodes) :
    p.nodes.kind? n = some .ib := by
  obtain ⟨r, hr, hn⟩ := List.mem_flatMap.mp hn
  exact h.buffers r (ibs_mem hr) n hn

/-- Buffers are listed below the submit or a buffer. -/
theorem Sound.ibOwner (h : p.Sound) (hs : p.submit = some submit) (o : Options) (kind : IbKind) :
    ∃ k, p.nodes.kind? (ibOwner o p submit kind) = some k ∧ (k = .submit ∨ k = .ib) := by
  rcases ibOwner_mem o p submit kind with heq | hmem
  · exact ⟨.submit, by rw [heq]; exact h.submit submit hs, .inl rfl⟩
  · exact ⟨.ib, h.kind?_ibs hmem, .inr rfl⟩

/-- A buffer is entered. -/
theorem Sound.entered {node : Nat} (h : p.Sound) (hk : p.nodes.kind? node = some .ib)
    (kind : IbKind) : (p.entered node kind).Sound := by
  have hpush {s : IbStack} (hs : ∀ r ∈ s, ∀ n ∈ r.toList, p.nodes.kind? n = some .ib) :
      ∀ r ∈ s.push node kind, ∀ n ∈ r.toList, p.nodes.kind? n = some .ib := by
    intro r hr n hn
    rcases IbStack.mem_push hr hn with rfl | ⟨r', hr', hn'⟩
    · exact hk
    · exact hs r' hr' n hn'
  have hdraw := fun r hr => h.buffers r (List.mem_append_left _ hr)
  have hconstant := fun r hr => h.buffers r (List.mem_append_right _ hr)
  unfold Pass.entered modifyIbs
  split
  · exact Sound.beginCleared { h with
      stacked := { h.stacked with }
      buffers := fun r hr => (List.mem_append.mp hr).elim (hdraw r) (hpush hconstant r) }
  · exact Sound.beginCleared { h with
      stacked := { h.stacked with }
      buffers := fun r hr => (List.mem_append.mp hr).elim (hpush hdraw r) (hconstant r) }

theorem entered_nodes {node : Nat} {kind : IbKind} : (p.entered node kind).nodes = p.nodes :=
  modifyIbs_nodes

theorem entered_edges {node : Nat} {kind : IbKind} : (p.entered node kind).edges = p.edges :=
  modifyIbs_edges

theorem entered_context {node : Nat} {kind : IbKind} :
    (p.entered node kind).context = p.context.entered node kind := by
  unfold entered modifyIbs
  show _ = beginCleared (if p.onConstantEngine then _ else _)
  split <;> rfl

theorem enterBuffer_leads (h : p.Sound) (hs : p.submit = some submit) (o : Options)
    (ibIndex : Nat) (ib : IndirectBuffer) (kind : IbKind) :
    Leads (enterBuffer o ibIndex ib kind) p
      (fun _ q => ibIndex < 1 <<< Aux.ibIndexBits ∧ q.Sound ∧
        p.Adds q [bufferNode ibIndex ib kind] (.on View.withBuffers
          [(ibOwner o (p.onEngine ib.constantEngine) submit kind, p.nodes.size)]) .none ∧
        q.context = ((p.onEngine ib.constantEngine).entered p.nodes.size kind).context)
      fun e _ => e = .violation (.ibIndexTooLarge ibIndex) ∧ 1 <<< Aux.ibIndexBits ≤ ibIndex := by
  have hstart : (p.onEngine ib.constantEngine).Sound := { h with stacked := { h.stacked with } }
  unfold enterBuffer openSubmit
  refine leads_bind.mpr (leads_bind.mpr (leads_get.mpr ?_))
  rw [hs]
  refine leads_pure.mpr (leads_bind.mpr (leads_modify.mpr (leads_bind.mpr ?_)))
  unfold Aux.ofIb?
  by_cases hindex : ibIndex < 1 <<< Aux.ibIndexBits
  · rw [if_pos hindex]
    refine leads_pure.mpr ?_
    refine (addNode_succeeds hstart.sized (bufferNode ibIndex ib kind)).bind ?_
    rintro _ q ⟨rfl, hq, hctx⟩
    have howner : ibOwner o q submit kind = ibOwner o (p.onEngine ib.constantEngine) submit kind :=
      (congrArg (Pass.ibOwner o · submit kind) hctx :)
    obtain ⟨k, hk, hor⟩ := hstart.ibOwner hs o kind
    refine leads_bind.mpr (leads_get.mpr ?_)
    rw [howner]
    refine (addOwned_succeeds hq.sized (by decide) (Nodes.kind?_lt (hq.kind? hk))
      (Nodes.kind?_lt (hq.kind?_new 0))).bind ?_
    rintro _ r ⟨hr, hctx'⟩
    replace hr := hq.trans hr
    have hr' := hstart.grownTo hr (.single_on (k := .ib) hk rfl (by decide) (by decide)
      fun v hv => by revert v; rcases hor with rfl | rfl <;> decide) (by simp)
    replace hr' : r.Sound := .of_context hr' (hctx'.trans hctx)
    refine Leads.intro_at () (r.entered p.nodes.size kind) rfl ⟨hindex, ?_, ?_, ?_⟩
    · exact hr'.entered (hr.kind?_new 0) kind
    · exact hr.congr rfl rfl entered_nodes entered_edges
    · rw [entered_context, hctx', hctx, ← entered_context]
  · rw [if_neg hindex]
    exact leads_throw.mpr ⟨rfl, Nat.le_of_not_lt hindex⟩

/-- Only markers are closed. -/
theorem scopeLeft_eq (p : Pass) : ∃ scope markers internal, p.scopeLeft =
    { p with scope := scope, markers := markers, internalMarkers := internal } := by
  unfold scopeLeft
  split
  · exact ⟨_, _, _, rfl⟩
  · split
    · exact ⟨_, _, _, rfl⟩
    · split
      · exact ⟨_, _, _, rfl⟩
      · exact ⟨_, _, _, rfl⟩

theorem Stacked.scopeLeft {P : Nat → Prop} (h : p.Stacked P) (hc : p.openCall = none) :
    p.scopeLeft.Stacked P := by
  have hclosed := h.levelClosed hc
  unfold Pass.scopeLeft
  split
  · exact h
  · split
    · exact { hclosed with scope := nofun }
    · split
      · exact hclosed
      · exact h

theorem Sound.scopeLeft (h : p.Sound) (hc : p.openCall = none) : p.scopeLeft.Sound := by
  have hstacked := h.stacked.scopeLeft hc
  obtain ⟨scope, markers, internal, heq⟩ := p.scopeLeft_eq
  rw [heq] at hstacked ⊢
  exact { h with stacked := hstacked }

/-- Where a buffer is left, nodes and edges stay, and so do the packets of the run. -/
theorem left_eq (p : Pass) : ∃ draw constant scope markers internal,
    p.popped.scopeLeft.beginCleared = { p.beginCleared with
      drawIbs := draw
      constantIbs := constant
      openCall := none
      scope := scope
      markers := markers
      internalMarkers := internal } := by
  obtain ⟨draw, constant, heq⟩ := p.modifyIbs_eq List.tail
  obtain ⟨scope, markers, internal, hleft⟩ := p.popped.scopeLeft_eq
  refine ⟨draw, constant, scope, markers, internal, ?_⟩
  rw [hleft, popped, heq]
  rfl

theorem Sound.tailIbs (h : p.Sound) : (p.modifyIbs List.tail).Sound := by
  have hdraw := fun r hr => h.buffers r (List.mem_append_left _ hr)
  have hconstant := fun r hr => h.buffers r (List.mem_append_right _ hr)
  unfold modifyIbs
  split
  · exact { h with
      stacked := { h.stacked with }
      buffers := fun r hr => (List.mem_append.mp hr).elim (hdraw r) fun hr =>
        hconstant r (List.mem_of_mem_tail hr) }
  · exact { h with
      stacked := { h.stacked with }
      buffers := fun r hr => (List.mem_append.mp hr).elim
        (fun hr => hdraw r (List.mem_of_mem_tail hr)) (hconstant r) }

theorem leaveScope_leads {f : PassM Unit} {Q : Unit → Pass → Prop} {E : Error → Pass → Prop}
    (hf : Leads f p.scopeLeft Q E) :
    Leads (do
      let depth := (← get).ibDepth
      if let some s := (← get).scope then
        if depth ≤ s.depth then closeLevel
        if depth < s.depth then modify fun p => { p with scope := none }
      f) p Q E := by
  unfold scopeLeft at hf
  refine leads_bind.mpr (leads_get.mpr (leads_bind.mpr (leads_get.mpr ?_)))
  cases hs : p.scope with
  | none => simpa [hs] using hf
  | some s =>
    simp only [hs] at hf
    dsimp only
    by_cases hle : p.ibDepth ≤ s.depth
    · by_cases hlt : p.ibDepth < s.depth
      · rw [if_pos hlt] at hf
        rw [if_pos hle]
        refine closeLevel_succeeds.bind ?_
        rintro _ _ rfl
        rw [if_pos hlt]
        exact leads_bind.mpr (leads_modify.mpr hf)
      · rw [if_neg hlt, if_pos hle] at hf
        rw [if_pos hle]
        refine closeLevel_succeeds.bind ?_
        rintro _ _ rfl
        rw [if_neg hlt]
        exact hf
    · have hlt : ¬p.ibDepth < s.depth := by omega
      rw [if_neg hlt, if_neg hle] at hf
      rw [if_neg hle, if_neg hlt]
      exact hf

theorem leaveBuffer_succeeds {r : IbRun} (h : p.Sound) (hs : p.submit = some submit)
    (hr : p.ibs.head? = some r) :
    Succeeds leaveBuffer p fun _ q => q = p.popped.scopeLeft.beginCleared ∧ q.Sound := by
  have htail := h.tailIbs.ready (modifyIbs_submit.trans hs)
  unfold leaveBuffer
  refine leads_bind.mpr (leads_get.mpr (leads_bind.mpr ?_))
  rw [hr]
  refine leads_pure.mpr (leads_bind.mpr (leads_modify.mpr ((closeCall_succeeds htail).bind ?_)))
  rintro _ _ rfl
  refine leaveScope_leads (p := p.popped) (leads_modify.mpr ⟨rfl, ?_⟩)
  exact (h.tailIbs.callClosed.scopeLeft rfl).beginCleared

end Pass

end CaptureForest
