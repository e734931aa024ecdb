import CaptureForest.Proofs.Pass.Apart
import CaptureForest.Proofs.Pass.Follow

/-! # Where no buffer is entered

`Pass.Rests p q` says that no buffer is entered between `p` and `q`: the buffers have the owners and
the children that they had, and no others are on the stacks. All steps but those that enter a buffer
are so (`Turns.rests`), and so are the begin and the end of a submit. The engines are the same
whatever happens (`Change.engines_eq`). -/

namespace CaptureForest.Pass

variable {p q r : Pass} {submit : Nat} {new : List Node} {owned shared : Links}

/-- Between `p` and `q` no buffer is entered. -/
structure Rests (p q : Pass) : Prop where
  engines : q.engines = p.engines
  nodes : ∃ new : List Node, q.nodes = p.nodes ++ new ∧ ∀ node ∈ new, node.kind ≠ .ib
  owned : ∀ v ∈ View.withBuffers, ∀ n, p.nodes.kind? n = some .ib → q.owned v n = p.owned v n
  owner : ∀ v ∈ View.withBuffers, ∀ {n c}, p.nodes.kind? c = some .ib →
    (c ∈ q.owned v n ↔ c ∈ p.owned v n)
  openRuns : ∀ s ∈ q.drawIbs ++ q.constantIbs, s ∈ p.drawIbs ++ p.constantIbs

namespace Rests

theorem refl (p : Pass) : p.Rests p where
  engines := rfl
  nodes := ⟨[], Array.appendList_nil.symm, by simp⟩
  owned _ _ _ _ := rfl
  owner _ _ _ _ _ := .rfl
  openRuns _ hs := hs

theorem kind? (h : p.Rests q) {n : Nat} {k : NodeKind} (hn : p.nodes.kind? n = some k) :
    q.nodes.kind? n = some k := by
  obtain ⟨new, hnodes, -⟩ := h.nodes
  rw [hnodes]
  exact Nodes.kind?_append hn

theorem trans (h : p.Rests q) (h' : q.Rests r) : p.Rests r := by
  obtain ⟨new, hnodes, hnew⟩ := h.nodes
  obtain ⟨more, hnodes', hmore⟩ := h'.nodes
  exact {
    engines := h'.engines.trans h.engines
    nodes := ⟨new ++ more, by rw [hnodes', hnodes, Nodes.append_append_list],
      fun node hn => (List.mem_append.mp hn).elim (hnew node) (hmore node)⟩
    owned := fun v hv n hn => (h'.owned v hv n (h.kind? hn)).trans (h.owned v hv n hn)
    owner := fun v hv _ _ hc => (h'.owner v hv (h.kind? hc)).trans (h.owner v hv hc)
    openRuns := fun s hs => h.openRuns s (h'.openRuns s hs) }

/-- Only what is remembered changes, and the stacks at most lose buffers. -/
theorem of_eq (hengines : q.engines = p.engines) (hnodes : q.nodes = p.nodes)
    (hedges : q.edges = p.edges)
    (hstacks : ∀ s ∈ q.drawIbs ++ q.constantIbs, s ∈ p.drawIbs ++ p.constantIbs) : p.Rests q where
  engines := hengines
  nodes := ⟨[], by rw [hnodes, Array.appendList_nil], by simp⟩
  owned v _ n _ := by rw [Pass.owned, hedges, Pass.owned]
  owner v _ n _ _ := by rw [Pass.owned, hedges, Pass.owned]
  openRuns := hstacks

end Rests

/-- What a rest keeps of the memory of a pass. -/
def restSite (p : Pass) : List (Engine × Nat) × IbStack := (p.engines, p.drawIbs ++ p.constantIbs)

theorem Adds.rests (hq : p.Adds q new owned shared) (hnew : ∀ node ∈ new, node.kind ≠ .ib)
    (howned : ∀ v ∈ View.withBuffers, ∀ e ∈ owned v,
      p.nodes.kind? e.1 ≠ some .ib ∧ p.nodes.kind? e.2 ≠ some .ib)
    (hsite : q.restSite = p.restSite) : p.Rests q where
  engines := (congrArg Prod.fst hsite :)
  nodes := ⟨new, hq.nodes, hnew⟩
  owned v hv n hn := by
    have hnil : (owned v).children n = [] := List.eq_nil_iff_forall_not_mem.mpr fun c hc =>
      (howned v hv (n, c) (EdgeLog.mem_children.mp hc)).1 hn
    rw [hq.owned, hnil, List.append_nil]
  owner v hv {n c} hc := by
    rw [hq.owned, List.mem_append, EdgeLog.mem_children]
    exact or_iff_left fun he => (howned v hv (n, c) he).2 hc
  openRuns s hs := by
    rw [show q.drawIbs ++ q.constantIbs = _ from congrArg Prod.snd hsite] at hs
    exact hs

/-- Edges of the views with events only are not seen by the views of buffers. -/
theorem Adds.rests_withEvents {log : EdgeLog} (hq : p.Adds q new (.on View.withEvents log) shared)
    (hnew : ∀ node ∈ new, node.kind ≠ .ib) (hsite : q.restSite = p.restSite) : p.Rests q :=
  hq.rests hnew (fun _ hv _ he => absurd (Links.mem_on.mp he).1 (not_mem_withEvents hv)) hsite

theorem restSite_of_site (h : q.site = p.site) : q.restSite = p.restSite :=
  (congrArg (fun s : Site => (s.engines, s.drawIbs ++ s.constantIbs)) h :)

theorem Quiet.rests (h : p.Quiet q) : p.Rests q where
  engines := (congrArg Site.engines h.site :)
  nodes := by
    obtain ⟨new, hnodes, hnew⟩ := h.nodes
    refine ⟨new, hnodes, fun node hn hib => ?_⟩
    rcases hnew node hn with hk | hk | hk <;> cases hib.symm.trans hk
  owned v hv n _ := h.owned v hv n
  owner v hv n _ _ := by rw [h.owned v hv n]
  openRuns s hs := by
    rw [show q.drawIbs ++ q.constantIbs = _ from
      congrArg Prod.snd (restSite_of_site h.site)] at hs
    exact hs

/-! ## Steps -/

theorem Logs.rests {o : Options} {buffer va : Nat} {kind : PacketKind} {header : UInt32}
    {words : Array UInt32} (h : Logs o submit buffer va kind header words p q) : p.Rests q := by
  refine h.adds.rests (fun node hn hib => ?_) (fun v _ e he => ?_) (restSite_of_site h.site)
  · rcases List.mem_cons.mp hn with rfl | hn
    · cases hib
    · rcases packetBelow_kind hn with hk | hk <;> cases hib.symm.trans hk
  · obtain ⟨hle, hle'⟩ := le_of_mem_packetLog (Links.mem_on.mp he).2
    exact ⟨fun hk => Nat.not_lt.mpr hle (Nodes.kind?_lt hk),
      fun hk => Nat.not_lt.mpr hle' (Nodes.kind?_lt hk)⟩

/-- A packet enters no buffer. A buffer that it leads to is entered by a step of its own. -/
theorem Runs.rests {o : Options} {m : Reader} {index va : Nat} {kind : PacketKind}
    {header : UInt32} (h : Runs o m index submit va kind header p q) (hp : p.Sound)
    (hs : p.submit = some submit) : p.Rests q := by
  cases h with
  | works _ _ _ hr hw hshare =>
    have hsubmit := (congrArg Site.submit hr.site :).trans hs
    obtain ⟨hsound, hquiet⟩ := hw.sound (hr.sound hp) hsubmit
    have hworked := hr.rests.trans hquiet.rests
    have hpacket := hquiet.rests.kind? hr.packet_kind?
    exact hworked.trans (hshare.sound hsound hpacket).2.rests
  | obeys _ _ _ hr ho =>
    have hsubmit := (congrArg Site.submit hr.site :).trans hs
    have hobeyed := (ho.sound (hr.sound hp).marked hsubmit).2.rests
    exact hr.rests.trans { hobeyed with }

theorem left_rests (p : Pass) : p.Rests p.popped.scopeLeft.beginCleared := by
  obtain ⟨_, _, _, hleft⟩ := p.popped.scopeLeft_eq
  rw [hleft]
  exact .of_eq modifyIbs_engines modifyIbs_nodes modifyIbs_edges fun _ hs =>
    (mem_modifyIbs hs).elim id fun hs => ibs_mem (List.mem_of_mem_tail hs)

theorem Turns.rests {o : Options} {m : Reader} {index : Nat} {step : Step}
    (h : Turns o m index submit p step q) (hp : p.Sound) (hs : p.submit = some submit)
    (hstep : ∀ ibIndex ib kind, step ≠ .enter ibIndex ib kind) : p.Rests q := by
  cases h with
  | enter => exact absurd rfl (hstep _ _ _)
  | leave => exact left_rests p
  | skip => exact .refl p
  | packet _ h => exact h.rests hp hs

theorem Enters.engines_eq {o : Options} {ibIndex : Nat} {ib : IndirectBuffer} {kind : IbKind}
    (h : Enters o submit ibIndex ib kind p q) : q.engines = p.engines := by
  obtain ⟨_, _, hctx⟩ := h.context_eq
  exact (congrArg Pass.engines hctx :)

/-! ## Submits -/

theorem submitStart_rests {engine : Nat} {s : Submit} (h : p.Sound)
    (he : p.engines.lookup s.engine = some engine) (index : Nat) :
    Succeeds (submitStart index s) p fun _ q => p.Rests q := by
  refine (submitStart_succeeds h he index).imp ?_
  rintro _ q ⟨-, hq, hctx⟩
  have hengine : p.nodes.kind? engine = some .engine := by
    obtain ⟨before, after, heq, -⟩ := List.lookup_eq_some_iff.mp he
    exact h.engines s.engine engine (by simp [heq])
  have hroot : p.nodes.kind? rootNode = some .root := h.arranged.root.mpr rfl
  have hnew (k : NodeKind) : p.nodes.kind? p.nodes.size ≠ some k :=
    fun hk => Nat.lt_irrefl _ (Nodes.kind?_lt hk)
  refine hq.rests (by simp [submitNode]) (fun v _ e he => ?_) (congrArg restSite hctx :)
  rcases List.mem_append.mp he with he | he
  · cases List.mem_singleton.mp (Links.mem_on.mp he).2
    exact ⟨by simp [hengine], hnew .ib⟩
  · cases List.mem_singleton.mp (Links.mem_on.mp he).2
    exact ⟨by simp [hroot], hnew .ib⟩

theorem sorted_rests (h : p.Sound) (hs : p.submit = some submit) : p.Rests (p.sorted submit) where
  engines := rfl
  nodes := ⟨[], Array.appendList_nil.symm, by simp⟩
  owned v hv n hn := by
    have hsubmit := h.submit submit hs
    have hne : n ≠ submit := by
      rintro rfl
      cases hsubmit.symm.trans hn
    rw [(sorted_replaces h.sized (Nodes.kind?_lt hsubmit)).owned, if_neg hne]
    split
    · subst v
      rfl
    · rfl
  owner v _ n _ _ := (sorted_perm h.sized (Nodes.kind?_lt (h.submit submit hs)) v n).mem_iff
  openRuns _ hs := hs

theorem addPostamble_rests (h : p.Ready submit) :
    Succeeds (addPostamble submit) p fun _ q => p.Rests q ∧ q.Sized := by
  refine (addPostamble_adds h).imp fun _ q hq => ?_
  split at hq
  · subst hq
    exact ⟨.refl q, h.sized⟩
  · obtain ⟨hq, hctx⟩ := hq
    exact ⟨hq.rests_withEvents (by simp [stateNode]) (congrArg restSite hctx :), hq.sized⟩

theorem addPresents_rests (h : p.Sized) (hroot : rootNode < p.nodes.size) (index : Nat) :
    Succeeds (addPresents index) p fun _ q => p.Rests q := by
  unfold addPresents
  refine leads_bind.mpr (leads_get.mpr ?_)
  refine (Leads.forM_const (I := fun q => p.Rests q ∧ q.Sized) ⟨.refl p, h⟩ ?_).imp
    fun _ _ hq => hq.1
  rintro ⟨present, i⟩ - q ⟨hq, hsized⟩
  refine leads_ite.mpr ⟨fun _ => ?_, fun _ => ⟨hq, hsized⟩⟩
  have hlt : rootNode < q.nodes.size := by
    obtain ⟨new, hnodes, -⟩ := hq.nodes
    rw [hnodes, Nodes.size_append_list]
    omega
  refine (addPresent_succeeds hsized hlt i present).imp ?_
  rintro _ r ⟨hr, hctx⟩
  exact ⟨hq.trans (hr.rests_withEvents (by simp [presentNode]) (congrArg restSite hctx :)),
    hr.sized⟩

theorem submitEnd_rests (h : p.Sound) (hs : p.submit = some submit) (index : Nat) :
    Succeeds (submitEnd index) p fun _ q => p.Rests q := by
  have hsorted : p.Rests (p.sorted submit).unmarked := { sorted_rests h hs with }
  have hroot : p.nodes.kind? rootNode = some .root := h.arranged.root.mpr rfl
  unfold submitEnd openSubmit
  refine leads_bind.mpr (leads_bind.mpr (leads_get.mpr ?_))
  rw [hs]
  refine leads_pure.mpr (leads_bind.mpr (leads_bind.mpr (leads_get.mpr (leads_bind.mpr
    (leads_get.mpr (leads_modify.mpr (leads_bind.mpr (leads_modify.mpr ?_))))))))
  refine (addPostamble_rests ((h.sorted hs).unmarked.ready hs)).bind ?_
  rintro _ q ⟨hq, hsized⟩
  replace hq := hsorted.trans hq
  refine (addPresents_rests hsized (Nodes.kind?_lt (hq.kind? hroot)) index).bind ?_
  intro _ r hr
  exact leads_bind.mpr (leads_modify.mpr (leads_modify.mpr ((hq.trans hr).trans
    (.of_eq rfl rfl rfl nofun))))

/-! ## Engines -/

/-- No change adds an engine. -/
theorem Change.engines_eq (hc : p.Change q) (hp : p.Sound) : q.engines = p.engines ∧
    q.owned .engine rootNode = p.owned .engine rootNode := by
  have hroot : p.nodes.kind? rootNode = some .root := hp.arranged.root.mpr rfl
  have hadds {r : Pass} {new : List Node} {owned shared : Links} (hr : p.Adds r new owned shared)
      (howned : ∀ e ∈ owned .engine, p.nodes.kind? e.1 ≠ some .root) :
      r.owned .engine rootNode = p.owned .engine rootNode := by
    have hnil : (owned .engine).children rootNode = [] :=
      List.eq_nil_iff_forall_not_mem.mpr fun c hc =>
        howned (rootNode, c) (EdgeLog.mem_children.mp hc) hroot
    rw [hr.owned, hnil, List.append_nil]
  have hquiet {r : Pass} (hr : p.Quiet r) : r.engines = p.engines ∧
      r.owned .engine rootNode = p.owned .engine rootNode :=
    ⟨(congrArg Site.engines hr.site :), hr.owned .engine (by decide) rootNode⟩
  cases hc with
  | @submitBegins _ s _ engine _ he hq hctx =>
    have hengine : p.nodes.kind? engine = some .engine := by
      obtain ⟨before, after, heq, -⟩ := List.lookup_eq_some_iff.mp he
      exact hp.engines s.engine engine (by simp [heq])
    refine ⟨(congrArg Pass.engines hctx :), hadds hq fun e he hk => ?_⟩
    cases List.mem_singleton.mp he
    cases hengine.symm.trans hk
  | @enters _ o _ _ ib kind hs hq =>
    have hstart : (p.onEngine ib.constantEngine).Sound := { hp with stacked := { hp.stacked with } }
    obtain ⟨_, howner, hor⟩ := hstart.ibOwner hs o kind
    refine ⟨hq.engines_eq, hadds hq.adds fun e he hk => ?_⟩
    cases List.mem_singleton.mp he
    cases howner.symm.trans hk
    rcases hor with hor | hor <;> cases hor
  | leaves =>
    obtain ⟨_, _, _, _, _, hleft⟩ := p.left_eq
    rw [hleft]
    exact ⟨rfl, rfl⟩
  | logs _ _ hq =>
    refine ⟨(congrArg Site.engines hq.site :), hadds hq.adds fun e he hk => ?_⟩
    exact Nat.not_lt.mpr (le_of_mem_packetLog he).1 (Nodes.kind?_lt hk)
  | works hs hq => exact hquiet (hq.sound hp hs).2
  | shares hm hq => exact hquiet (hq.sound hp (hp.beginPackets _ (Array.mem_def.mp hm))).2
  | obeys hs _ hq => exact hquiet (hq.sound hp hs).2
  | sorts hs =>
    refine ⟨rfl, ?_⟩
    rw [(sorted_replaces hp.sized (Nodes.kind?_lt (hp.submit _ hs))).owned]
    rfl
  | endsState _ hq hctx | presents hq hctx =>
    exact ⟨(congrArg Pass.engines hctx :), hadds hq nofun⟩
  | marks | clears | unmarks | submitEnds => exact ⟨rfl, rfl⟩

end CaptureForest.Pass
