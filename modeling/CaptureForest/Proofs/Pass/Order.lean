import CaptureForest.Proofs.Pass.Sharing
import CaptureForest.Proofs.Pass.Tied
import CaptureForest.Proofs.Pass.Tree
import CaptureForest.Proofs.Pass.Typed

/-! # The order of events

In the view of all events a marker or an event is put below the innermost open marker, and so behind
all that was there. Only a command buffer that begins is put elsewhere, below the submit or the call
that executes it. It is in place if the last branch from the innermost open marker leads there
(`Pass.InPlace`). Events are in order, up to the command buffers that are not (`Pass.Ordered`). -/

namespace CaptureForest.Pass

variable {Z Y : Nat → Prop} {p q : Pass} {o : Options} {submit n : Nat} {node : Node} {s : Scope}
  {new : List Node} {owned shared : Links}

/-! ## Passes with their events in order -/

/-- The owners that markers and events can have now, the innermost first: the open markers and the
submit. -/
def opens (p : Pass) : List Nat := p.markers ++ p.submit.toList

/-- From the innermost open marker the last branch leads to where the marker of a command buffer is
put that begins now. The events that this marker takes do not count. -/
def InPlace (p : Pass) (submit : Nat) : Prop :=
  Relation.ReflTransGen (Last (p.owned .allEvent) (p.waiting))
    (p.callClosed.innermost submit) (p.bufferOwner submit)

/-- Events and synchronisations are in order, up to `Z` and `Y`, and new ones will be. -/
structure Ordered (Z Y : Nat → Prop) (p : Pass) : Prop where
  branched : Branched (p.owned .allEvent) Z Y p.nodes.EndsRun p.opens
  tied : p.levels.Tied (p.owned .allEvent) Z p.submit.toList
  waits : ∀ {e x}, p.nodes.EndsRun e → e ∉ p.waiting → x ∈ p.waiting → e < x

theorem Sound.opens_kind (h : p.Sound) (hn : n ∈ p.opens) :
    n < p.nodes.size ∧ ¬p.nodes.EndsRun n := by
  rcases List.mem_append.mp hn with hn | hn
  · have hk := h.stacked.markers n hn
    exact ⟨Nodes.kind?_lt hk, Nodes.not_endsRun hk rfl⟩
  · have hk := h.submit n (Option.mem_toList.mp hn)
    exact ⟨Nodes.kind?_lt hk, Nodes.not_endsRun hk rfl⟩

theorem Sound.opens_lt (h : p.Sound) (hn : n ∈ p.opens) : n < p.nodes.size ∧ n ∉ p.waiting := by
  obtain ⟨hlt, hends⟩ := h.opens_kind hn
  exact ⟨hlt, fun hwaits => hends (h.endsRun_of_mem_waiting hwaits)⟩

/-- The call of a scope is not open while it has no level. -/
theorem Scoped.not_mem_opens (h : p.Scoped) (hp : p.Sound) (hdistinct : p.Distinct)
    (ht : p.nodes.Typed) (hs : p.scope = some s) (hclosed : s.levelOpen = false) :
    s.call ∉ p.callClosed.opens := fun hmem => by
  rcases List.mem_append.mp hmem with hmem | hmem
  · exact hdistinct.levels.closed s hs hclosed hmem
  · have hk := ht.kind?_marker (h s hs).call
    cases hk.symm.trans (hp.submit _ (Option.mem_toList.mp hmem))

namespace Ordered

/-- The tree stays as it is, and markers are only closed. -/
theorem keeps (h : p.Ordered Z Y) (hnodes : q.nodes = p.nodes)
    (howned : ∀ n, q.owned .allEvent n = p.owned .allEvent n) (hopens : q.opens.Sublist p.opens)
    (htied : q.levels.Tied (p.owned .allEvent) Z q.submit.toList)
    (hwaiting : q.waiting = p.waiting ∨ q.waiting = []) : q.Ordered Z Y := by
  have howned : q.owned .allEvent = p.owned .allEvent := funext howned
  exact {
    branched := by
      rw [howned, hnodes]
      exact h.branched.sublist hopens id
    tied := howned ▸ htied
    waits := fun {e x} he he' hx => by
      rcases hwaiting with heq | heq
      · rw [heq] at he' hx
        exact h.waits (hnodes ▸ he) he' hx
      · rw [heq] at hx
        cases hx }

/-- New nodes that end no run are put below others. -/
theorem grow (h : p.Ordered Z Y) (hp : p.Sound) (hq : p.Adds q new owned shared)
    (hnew : ∀ node ∈ new, node.kind.endsRun = false)
    (hedges : ∀ e ∈ owned .allEvent, p.nodes.size ≤ e.2) : (p.grownTo q).Ordered Z Y := by
  have hgrown := hp.regrown hq hedges
  have hold {e : Nat} (he : q.nodes.EndsRun e) := he.of_append_new hq.nodes hnew
  exact {
    branched := by
      have hbranched := h.branched.regrown hgrown (fun he => he.lt) fun m hm => (hp.opens_kind hm).1
      exact hbranched.sublist (.refl _) hold
    tied := h.tied.regrown hgrown (fun m hm => ⟨(hp.callClosed.opens_kind hm).1, List.not_mem_nil⟩)
      fun s hs => ⟨Nodes.kind?_lt (hp.stacked.scope s hs), List.not_mem_nil⟩
    waits := fun he => h.waits (hold he) }

/-- The innermost open marker, or the submit, is inside all others. -/
theorem innermost (h : p.Ordered Z Y) (hs : p.submit = some submit) : p.innermost submit ∈ p.opens ∧
    ∀ m ∈ p.opens, Inner (p.owned .allEvent) Z (p.innermost submit) m := by
  have hopens : ∃ outer, p.opens = p.innermost submit :: outer := by
    unfold opens Pass.innermost
    rw [hs]
    cases p.markers with
    | nil => exact ⟨[], rfl⟩
    | cons m ms => exact ⟨_, rfl⟩
  obtain ⟨outer, hopens⟩ := hopens
  have hnest := h.branched.nest
  rw [hopens] at hnest ⊢
  refine ⟨List.mem_cons_self, fun m hm => ?_⟩
  rcases List.mem_cons.mp hm with rfl | hm
  · exact .inl .refl
  · exact (List.pairwise_cons.mp hnest).1 m hm

/-- A new node below the innermost open marker. -/
theorem attached (h : p.Ordered Z Y) (hp : p.Sound) (hs : p.submit = some submit)
    (hq : p.Adds q [node] (.on View.withEvents [(p.innermost submit, p.nodes.size)]) shared) :
    Grafted p.nodes.size (p.innermost submit) [] (p.owned .allEvent) (q.owned .allEvent) := by
  obtain ⟨hlt, hends⟩ := hp.opens_kind (h.innermost hs).1
  exact hp.attached hlt hends fun n => hq.owned .allEvent n

/-- A new marker below the innermost open one can be opened. -/
theorem attachMarker (h : p.Ordered Z Y) (hp : p.Sound) (hs : p.submit = some submit)
    (hq : p.Adds q [node] (.on View.withEvents [(p.innermost submit, p.nodes.size)]) shared)
    (hnode : node.kind.endsRun = false) : (p.grownTo q).Ordered Z Y ∧
      Branched (q.owned .allEvent) Z Y q.nodes.EndsRun (p.nodes.size :: p.opens) := by
  have hgrafted := h.attached hp hs hq
  obtain ⟨hmem, hinner⟩ := h.innermost hs
  have hgrown : (p.grownTo q).Ordered Z Y :=
    h.grow hp hq (by simpa using hnode) fun e he => by
      rw [List.mem_singleton.mp (Links.mem_on.mp he).2]
  refine ⟨hgrown, hgrown.branched.push (fun {e} he => ?_) fun m hm => ?_⟩
  · replace he := he.of_append_new hq.nodes (by simpa using hnode)
    refine .inr (hgrafted.covers_new (h.branched.covers hmem he) (fun heq => ?_) he.lt
      List.not_mem_nil)
    exact (hp.opens_kind hmem).2 (heq ▸ he)
  · exact hgrafted.inner_new (hinner m hm) (hp.opens_kind hm).1 List.not_mem_nil

/-- A new event comes last. -/
theorem attachEvent (h : p.Ordered Z Y) (hp : p.Sound) (hs : p.submit = some submit)
    (hq : p.Adds q [node] (.on View.withEvents [(p.innermost submit, p.nodes.size)]) shared) :
    Ordered Z Y { p.grownTo q with
      beginEvents := p.beginEvents.push (p.pendingEvent submit p.nodes.size) } := by
  have hgrafted := h.attached hp hs hq
  obtain ⟨hmem, hinner⟩ := h.innermost hs
  have hold {e : Nat} (he : q.nodes.EndsRun e) : p.nodes.EndsRun e ∨ e = p.nodes.size := by
    have hlt := he.lt
    rw [hq.size] at hlt
    exact (Nat.lt_succ_iff_lt_or_eq.mp hlt).imp_left (he.of_append hq.nodes)
  have hwaiting {x : Nat} :
      x ∈ (p.beginEvents.push (p.pendingEvent submit p.nodes.size)).toList.map (·.node) ↔
        x ∈ p.waiting ∨ x = p.nodes.size := by
    rw [Array.toList_push, List.map_append, List.mem_append]
    exact or_congr_right List.mem_singleton
  exact {
    branched := by
      refine h.branched.newest hgrafted (fun he => he.lt) (hp.opens_kind hmem).2
        (fun m hm => (hp.opens_kind hm).1) (h.branched.covers hmem) hinner hold
    tied := h.tied.regrown hgrafted.toRegrown
      (fun m hm => ⟨(hp.callClosed.opens_kind hm).1, List.not_mem_nil⟩)
      fun s hs => ⟨Nodes.kind?_lt (hp.stacked.scope s hs), List.not_mem_nil⟩
    waits := fun {e x} he he' hx => by
      replace he' := mt hwaiting.mpr he'
      have he := (hold he).resolve_right fun heq => he' (.inr heq)
      rcases hwaiting.mp hx with hx | rfl
      · exact h.waits he (fun hmem => he' (.inl hmem)) hx
      · exact he.lt }

/-! ## Closing -/

theorem callClosed_sublist : p.callClosed.markers.Sublist p.markers := by
  unfold Pass.callClosed
  dsimp only
  split
  · exact List.tail_sublist _
  · exact .refl _

theorem callClosed (h : p.Ordered Z Y) : p.callClosed.Ordered Z Y :=
  h.keeps rfl (fun _ => rfl) (callClosed_sublist.append (.refl _)) h.tied (.inl rfl)

theorem beginCleared (h : p.Ordered Z Y) : p.beginCleared.Ordered Z Y :=
  h.keeps rfl (fun _ => rfl) (.refl _) h.tied (.inr rfl)

/-- Where no label is pushed, a shift of the markers keeps the call of the scope tied. -/
theorem shift (h : p.Ordered Z Y) (hexec : ∀ s, p.scope = some s → p.nodes.Executes s.call)
    {depth : Nat} {l : Levels} (hshift : Levels.Shift p.nodes depth p.levels l)
    (hmarkers : ∀ m ∈ l.markers, p.nodes.kind? m = some .marker) :
    l.Tied (p.owned .allEvent) Z p.submit.toList :=
  hshift.tied h.tied (h.branched.nest.sublist (callClosed_sublist.append (.refl _))) hexec
    fun m hm => Nodes.kind?_lt (hmarkers m hm)

theorem belowLabel_sublist : p.belowLabel.Sublist p.markers := by
  unfold belowLabel
  cases p.markers with
  | nil => exact .slnil
  | cons m ms =>
    dsimp only
    split
    · exact List.sublist_cons_self m ms
    · exact .refl _

theorem belowLevel_sublist {ms : List Nat} : (p.belowLevel ms).Sublist ms := by
  unfold belowLevel
  split
  · split
    · exact popThrough_sublist
    · exact .refl _
  · exact .refl _

section

variable (h : p.Ordered Z Y) (hp : p.Sound)
  (hexec : ∀ s, p.scope = some s → p.nodes.Executes s.call) (hc : p.openCall = none)

include h hp hexec hc

theorem labelClosed : p.labelClosed.Ordered Z Y := by
  refine h.keeps rfl (fun _ => rfl) (belowLabel_sublist.append (.refl _)) ?_ (.inl rfl)
  have hshift : Levels.Shift p.nodes 0 p.levels p.labelClosed.levels := shift_labelClosed hc
  exact h.shift hexec hshift (hp.stacked.labelClosed hc).callClosed.markers

theorem levelClosed : p.levelClosed.Ordered Z Y := by
  refine h.keeps rfl (fun _ => rfl) (belowLevel_sublist.append (.refl _)) ?_ (.inl rfl)
  have hshift : Levels.Shift p.nodes 0 p.levels p.levelClosed.levels := shift_levelClosed hc
  exact h.shift hexec hshift (hp.stacked.levelClosed hc).callClosed.markers

theorem scopeLeft : p.scopeLeft.Ordered Z Y := by
  have hclosed := h.levelClosed hp hexec hc
  unfold Pass.scopeLeft
  cases p.scope with
  | none => exact h
  | some s =>
    dsimp only
    split
    · exact hclosed.keeps rfl (fun _ => rfl) (.refl _) (.none rfl) (.inl rfl)
    · split
      · exact hclosed
      · exact h

theorem tied_scopeEntered :
    p.scopeEntered.levels.Tied (p.owned .allEvent) Z p.submit.toList := by
  have hmarkers := (hp.stacked.scopeEntered hc).callClosed.markers
  rw [scopeEntered_eq] at hmarkers ⊢
  split at hmarkers
  · rename_i hin
    rw [if_pos hin]
    exact h.shift hexec (shift_levelOpened hc hin) hmarkers
  · rename_i hin
    rw [if_neg hin]
    exact h.tied

end

theorem scopeEnded (h : p.Ordered Z Y) : p.scopeEnded.Ordered Z Y := by
  refine h.keeps rfl (fun _ => rfl) (.refl _) ?_ (.inl rfl)
  unfold Pass.scopeEnded levels
  dsimp only
  split
  · exact .none rfl
  · exact h.tied

end Ordered

/-! ## Recorded calls -/

/-- A command buffer that begins now is in place, or its marker is in `Z` and the call that executes
it in `Y`. -/
def Places (Z Y : Nat → Prop) (p : Pass) (submit : Nat) : Prop :=
  p.InPlace submit ∨
    Z p.nodes.size ∧ (p.nodes.Executes (p.bufferOwner submit) → Y (p.bufferOwner submit))

theorem Scoped.bufferOwner (h : p.Scoped) (submit : Nat) :
    p.bufferOwner submit = submit ∨ p.nodes.Executes (p.bufferOwner submit) := by
  unfold Pass.bufferOwner
  split
  · cases hs : p.scope with
    | none => exact .inl rfl
    | some s => exact .inr (h s hs).call
  · exact .inl rfl

/-- A command buffer that may begin is below an open marker or opens a level. -/
theorem opens_scopeEntered (p : Pass) (submit : Nat) : p.scopeEntered.opens = p.opens ∨
    ∃ s, p.scope = some s ∧ s.levelOpen = false ∧ p.bufferOwner submit = s.call ∧
      p.scopeEntered.opens = s.call :: p.opens := by
  rw [scopeEntered_eq]
  unfold Pass.bufferOwner
  split
  · unfold Pass.opens levelOpened level
    cases p.scope with
    | none => exact .inl rfl
    | some s =>
      cases hs : s.levelOpen with
      | true => exact .inl (by simp [hs])
      | false => exact .inr ⟨s, rfl, hs, rfl, by simp [hs]⟩
  · exact .inl rfl

namespace Ordered

section

variable (h : p.Ordered Z Y) (hp : p.Sound) (hscoped : p.Scoped) (hs : p.submit = some submit)
  (hplaces : p.Places Z Y submit)

include h hp hscoped hs hplaces

/-- Events that do not wait are covered where the marker of the command buffer is put. -/
theorem covers_bufferOwner {e : Nat} (he : p.nodes.EndsRun e) (he' : e ∉ p.waiting) :
    Covers (p.owned .allEvent) Z Y e (p.bufferOwner submit) := by
  have hclosed := h.callClosed
  rcases hplaces with hpath | ⟨-, hstray⟩
  · have hcovers := hclosed.branched.covers (hclosed.innermost hs).1 he
    exact hcovers.last hpath (fun ha hb => hp.arranged.once ha hb)
      (fun x hx => hp.leaf (hp.endsRun_of_mem_waiting hx) .allEvent) he' (hp.leaf he .allEvent)
  · rcases hscoped.bufferOwner submit with howner | hexec
    · rw [howner]
      exact hclosed.branched.covers (List.mem_append_right _ (Option.mem_toList.mpr hs)) he
    · by_cases hover : Over (p.owned .allEvent) (p.bufferOwner submit) e
      · exact .inl hover
      · exact .inr (.inr (.inr ⟨_, hstray hexec, .refl, hover⟩))

omit hscoped in
/-- The marker is inside all that are still open. -/
theorem inner_buffer {m : Nat} (hg : Grafted p.nodes.size (p.bufferOwner submit) p.waiting
      (p.owned .allEvent) (q.owned .allEvent)) (hm : m ∈ p.callClosed.opens) :
    Inner (q.owned .allEvent) Z p.nodes.size m := by
  obtain ⟨hlt, hm'⟩ := hp.callClosed.opens_lt hm
  rcases hplaces with hpath | ⟨hstray, -⟩
  · have hinner := (h.callClosed.innermost hs).2 m hm
    exact hg.inner_new (hinner.over (Last.over hpath)) hlt hm'
  · refine .inr (.inr ⟨_, hstray, .refl, fun hover => ?_⟩)
    exact Nat.lt_irrefl _ (hg.lt ((hg.over_iff hlt hm').mp hover) hlt)

/-- The marker of the command buffer is opened, inside the call that executes it. -/
theorem branched_buffer (hascending : p.Ascending)
    (hg : Grafted p.nodes.size (p.bufferOwner submit) p.waiting (p.owned .allEvent)
      (q.owned .allEvent)) (hends : ¬p.nodes.EndsRun (p.bufferOwner submit)) :
    Branched (q.owned .allEvent) Z Y p.nodes.EndsRun
      (p.nodes.size :: p.callClosed.scopeEntered.opens) := by
  have hcovers {e : Nat} (he : p.nodes.EndsRun e) (he' : e ∉ p.waiting) :=
    h.covers_bufferOwner hp hscoped hs hplaces he he'
  have hinner {m : Nat} (hm : m ∈ p.callClosed.opens) := h.inner_buffer hp hs hplaces hg hm
  obtain ⟨hbranched, hnew⟩ := h.callClosed.branched.grafted hg (fun he => he.lt)
    (fun he => hp.leaf he .allEvent) hends (fun m hm => hp.callClosed.opens_lt hm)
    hascending.events h.waits hcovers fun m hm => hinner hm
  rcases p.callClosed.opens_scopeEntered submit with heq | ⟨s, hscope, hlevel, hcall, heq⟩
  · rw [heq]
    exact hbranched.push hnew fun m hm => hinner hm
  · rw [heq]
    replace hcall : p.bufferOwner submit = s.call := hcall
    rw [hcall] at hg
    have hover : Over (q.owned .allEvent) s.call p.nodes.size := hg.over_new.mpr (.inr .refl)
    refine (hbranched.push (fun {e} he => ?_) fun m hm => ?_).push hnew fun m hm => ?_
    · by_cases he' : e ∈ p.waiting
      · exact .inl (hover.trans ((hg.over_moved he').mpr (.inr .refl)))
      · exact hg.covers (hcall ▸ hcovers he he') he.lt he' hg.owner hg.owner_not_moved
    · obtain ⟨hlt, hm'⟩ := hp.callClosed.opens_lt hm
      exact hg.inner (h.tied.closed s hscope hlevel m hm) hg.owner hg.owner_not_moved hlt hm'
    · rcases List.mem_cons.mp hm with rfl | hm
      · exact .inl hover
      · exact hinner hm

end

/-- The marker of a command buffer that begins takes the events that wait. -/
theorem beginsBuffer (h : p.Ordered Z Y) (hp : p.Sound) (hascending : p.Ascending)
    (hscoped : p.Scoped) (hs : p.submit = some submit) (hplaces : p.Places Z Y submit)
    (hnode : node.kind.endsRun = false)
    (hq : p.Regroups q p.waiting [node]
      (takeover (p.bufferOwner submit) p.nodes.size p.waiting) shared)
    (hctx : q.context = (p.callClosed.scopeEntered.beginCleared.opened p.nodes.size).context) :
    q.Ordered Z Y := by
  have hgrafted := hp.takes hs hq
  have hends : ¬p.nodes.EndsRun (p.bufferOwner submit) := by
    obtain ⟨k, hk, hor⟩ := hp.bufferOwner hs
    refine Nodes.not_endsRun hk ?_
    rcases hor with rfl | rfl <;> rfl
  have hmarker {m : Nat} (hm : p.nodes.kind? m = some .marker) :
      m < p.nodes.size ∧ m ∉ p.waiting :=
    ⟨Nodes.kind?_lt hm, fun hwaits =>
      Nodes.not_endsRun hm rfl (hp.endsRun_of_mem_waiting hwaits)⟩
  have hstacked := hp.callClosed.stacked.scopeEntered rfl
  have hexec (s : Scope) (hs : p.scope = some s) := (hscoped s hs).call
  refine of_grownTo (c := p.callClosed.scopeEntered.beginCleared.opened p.nodes.size) {
    branched := ?_
    tied := ?_
    waits := fun _ _ hx => absurd hx List.not_mem_nil } hctx
  · have hbranched := h.branched_buffer hp hscoped hs hplaces hascending hgrafted hends
    exact hbranched.sublist (.refl _) fun he => he.of_append_new hq.nodes (by simpa using hnode)
  · have htied := h.callClosed.tied_scopeEntered hp.callClosed hexec rfl
    show (p.callClosed.scopeEntered.beginCleared.opened p.nodes.size).levels.Tied
      (q.owned .allEvent) Z p.submit.toList
    rw [levels_opened rfl]
    refine htied.regrown hgrafted.toRegrown (fun m hm => ?_) fun s hs => hmarker (hstacked.scope s hs)
    rcases List.mem_append.mp hm with hm | hm
    · exact hmarker (hstacked.callClosed.markers m hm)
    · exact hp.opens_lt (List.mem_append_right _ hm)

theorem obeys {call : CallMarker} (h : p.Ordered Z Y) (hp : p.Sound) (hascending : p.Ascending)
    (hscoped : p.Scoped) (hdistinct : p.Distinct) (ht : p.nodes.Typed)
    (hs : p.submit = some submit) (hq : Obeys o submit call p q)
    (hplaces : q.nodes.Begins p.nodes.size → p.Places Z Y submit) : q.Ordered Z Y := by
  have hclosed := h.callClosed
  have hcp := hp.callClosed
  have hexec (s : Scope) (hs : p.scope = some s) := (hscoped s hs).call
  -- A marker is put below the innermost one that is still open.
  have hattach {node : Node} (hk : node.kind = .marker)
      (hq : p.Adds q [node] (.on View.withEvents [(p.callClosed.innermost submit, p.nodes.size)])
        .none) : (p.callClosed.grownTo q).Sound ∧ (p.callClosed.grownTo q).Ordered Z Y ∧
        Branched (q.owned .allEvent) Z Y q.nodes.EndsRun (p.nodes.size :: p.callClosed.opens) ∧
        Grafted p.nodes.size (p.callClosed.innermost submit) [] (p.owned .allEvent)
          (q.owned .allEvent) := by
    have hq' : p.callClosed.Adds q [node]
        (.on View.withEvents [(p.callClosed.innermost submit, p.nodes.size)]) .none :=
      hq.congr rfl rfl rfl rfl
    obtain ⟨hsound, -⟩ := hcp.attachMarker hs hk hq'
    obtain ⟨hordered, hbranched⟩ := hclosed.attachMarker hcp hs hq' (by rw [hk]; rfl)
    exact ⟨hsound, hordered, hbranched, hclosed.attached hcp hs hq'⟩
  cases hq with
  | beginsBuffer hc hq hctx =>
    refine h.beginsBuffer hp hascending hscoped hs (hplaces ?_) ?_ hq hctx
    · rw [hq.nodes, Nodes.Begins, Nodes.aux?_append_head, callNode, hc]
    · rfl
  | endsBuffer _ hq hctx =>
    obtain ⟨hsound, hordered, -⟩ := hattach rfl hq
    split at hctx
    · have hexec (s : Scope) (hs : p.scope = some s) : q.nodes.Executes s.call := by
        rw [hq.nodes]
        exact Nodes.aux?_append (hexec s hs)
      exact of_grownTo (c := p.callClosed.levelClosed) (hordered.levelClosed hsound hexec rfl) hctx
    · exact of_grownTo hordered hctx
  | beginsLabel _ hq hctx =>
    obtain ⟨-, hordered, hbranched, hgrafted⟩ := hattach rfl hq
    have hmem := (hclosed.innermost hs).1
    refine of_grownTo (c := { p.callClosed.pushed p.nodes.size with numLabels := p.numLabels + 1 }) {
      branched := hbranched
      tied := h.tied.pushed hgrafted hmem (fun m hm => (hcp.opens_kind hm).1)
        (fun s hs => Nodes.kind?_lt (hp.stacked.scope s hs)) fun s hs hlevel heq => ?_
      waits := hordered.waits } hctx
    exact hscoped.not_mem_opens hp hdistinct ht hs hlevel (heq ▸ hmem)
  | endsLabel => exact hclosed.labelClosed hcp hexec rfl
  | insertsLabel _ hq hctx =>
    obtain ⟨-, hordered, -⟩ := hattach rfl hq
    exact of_grownTo (c := { p.callClosed with numLabels := p.numLabels + 1 }) { hordered with } hctx
  | opensCall _ hq hctx =>
    obtain ⟨-, hordered, hbranched, -⟩ := hattach rfl hq
    have hended := hordered.scopeEnded
    refine of_grownTo ?_ hctx
    rw [scopeBegun_grownTo, opened_grownTo, scopeEnded_grownTo]
    refine {
      branched := hbranched
      tied := ?_
      waits := hordered.waits }
    unfold scopeBegun levels
    dsimp only
    split
    · refine ⟨fun s hs hopen => ?_, fun s hs _ m hm => ?_⟩
      · cases hs
        cases hopen
      · cases hs
        exact (List.pairwise_cons.mp hbranched.nest).1 m hm
    · exact hended.tied

/-! ## Changes -/

/-- A submit begins below the root, which all events are below. -/
theorem submitBegins {index engine : Nat} {s : Submit} (h : p.Ordered Z Y) (hp : p.Sound)
    (hapart : p.Apart) (hnone : p.submit = none)
    (hq : p.Adds q [submitNode index s] (submitLinks engine p.nodes.size) .none)
    (hctx : q.context = { p.context with submit := some p.nodes.size }) : q.Ordered Z Y := by
  have hroot : p.nodes.kind? rootNode = some .root := hp.arranged.root.mpr rfl
  have hgrafted : Grafted p.nodes.size rootNode [] (p.owned .allEvent) (q.owned .allEvent) := by
    exact hp.attached (Nodes.kind?_lt hroot) (Nodes.not_endsRun hroot rfl) fun n =>
      hq.owned .allEvent n
  have hgrown : (p.grownTo q).Ordered Z Y := by
    refine h.grow hp hq (by simp [submitNode, NodeKind.endsRun]) fun e he => ?_
    rw [submitLinks_of_withEvents (by decide)] at he
    rw [List.mem_singleton.mp he]
  have hmarkers : p.markers = [] := List.eq_nil_iff_forall_not_mem.mpr fun m hm => by
    obtain ⟨_, hs, -⟩ := hapart.stacked.markers m hm
    cases hnone.symm.trans hs
  have hscope : p.scope = none := Option.eq_none_iff_forall_ne_some.mpr fun s hs => by
    obtain ⟨_, hsubmit, -⟩ := hapart.stacked.scope s hs
    cases hnone.symm.trans hsubmit
  have hopens : (p.grownTo q).opens = [] := by
    show p.markers ++ p.submit.toList = []
    rw [hmarkers, hnone]
    rfl
  have hbranched : Branched (q.owned .allEvent) Z Y q.nodes.EndsRun
      (p.nodes.size :: (p.grownTo q).opens) := by
    refine hgrown.branched.push (fun {e} he => .inr ?_) ?_
    · obtain ⟨k, hk, hends⟩ := he.of_append_new hq.nodes (by simp [submitNode, NodeKind.endsRun])
      have hover : Over (p.owned .allEvent) rootNode e := by
        refine hp.arranged.reachable hk ?_ ?_ ?_
        all_goals
          revert hends
          cases k <;> decide
      refine hgrafted.covers_new (.inl hover) ?_ (Nodes.kind?_lt hk) List.not_mem_nil
      rintro rfl
      cases hroot.symm.trans hk
      cases hends
    · rw [hopens]
      exact List.forall_mem_nil _
  refine of_grownTo (c := { p with submit := some p.nodes.size }) {
    branched := hbranched.sublist ?_ id
    tied := .none hscope
    waits := hgrown.waits } hctx
  show (p.markers ++ [p.nodes.size]).Sublist _
  rw [hmarkers]
  exact (List.nil_sublist _).cons_cons _

end Ordered

/-- Every change keeps events in order, if it places the command buffer that it begins. -/
theorem Change.ordered (hc : p.Change q) (hp : p.Sound) (hapart : p.Apart)
    (hascending : p.Ascending) (hscoped : p.Scoped) (hdistinct : p.Distinct) (ht : p.nodes.Typed)
    (hplaces : ∀ {submit}, p.submit = some submit → q.nodes.Begins p.nodes.size →
      p.Places Z Y submit) (h : p.Ordered Z Y) : q.Ordered Z Y := by
  have hattach {submit : Nat} {node : Node} {packets : Links} (hk : node.kind.endsRun = false)
      (hq : p.Adds q [node] (.on View.withEvents [(submit, p.nodes.size)]) packets) :
      (p.grownTo q).Ordered Z Y :=
    h.grow hp hq (by simpa using hk) fun e he => by
      rw [List.mem_singleton.mp (Links.mem_on.mp he).2]
  cases hc with
  | submitBegins hnone _ hq hctx => exact h.submitBegins hp hapart hnone hq hctx
  | enters _ hq =>
    obtain ⟨draw, constant, hctx⟩ := hq.context_eq
    have hgrown := (h.grow hp hq.adds (by simp [bufferNode, NodeKind.endsRun]) fun e he =>
      absurd (Links.mem_on.mp he).1 (by decide)).beginCleared
    exact of_grownTo (c := { p.beginCleared with
      onConstantEngine := _
      drawIbs := draw
      constantIbs := constant }) { hgrown with } hctx
  | leaves =>
    obtain ⟨draw, constant, hpopped⟩ := p.modifyIbs_eq List.tail
    have hibs : (p.modifyIbs List.tail).Ordered Z Y := by
      rw [hpopped]
      exact { h with }
    have hexec : ∀ s, (p.modifyIbs List.tail).scope = some s →
        (p.modifyIbs List.tail).nodes.Executes s.call := by
      rw [hpopped]
      exact fun s hs => (hscoped s hs).call
    have hsound : p.popped.Sound := hp.tailIbs.callClosed
    exact (hibs.callClosed.scopeLeft hsound hexec rfl).beginCleared
  | logs _ _ hq =>
    have hgrown : (p.grownTo q).Ordered Z Y := by
      refine h.grow hp hq.adds (fun node hnode => ?_) fun e he => ?_
      · rcases List.mem_cons.mp hnode with rfl | hnode
        · rfl
        · rcases packetBelow_kind hnode with hk | hk <;> simp [hk, NodeKind.endsRun]
      · exact (le_of_mem_packetLog (Links.mem_on.mp he).2).2
    exact of_grownTo (c := p.packetWaits p.nodes.size) { hgrown with } hq.context
  | works hs hq =>
    cases hq with
    | sync _ _ hq hctx =>
      exact of_grownTo (c := { p with
        packets := #[]
        beginEvents := p.beginEvents.push (p.pendingEvent _ p.nodes.size) })
        { h.attachEvent hp hs hq with } hctx
    | event _ _ hq hctx =>
      exact of_grownTo (c := { p with
        numEvents := p.numEvents + 1
        events := p.events.push p.nodes.size
        packets := #[]
        beginEvents := p.beginEvents.push (p.pendingEvent _ p.nodes.size) })
        { h.attachEvent hp hs hq with } hctx
    | nothing => exact h
  | shares _ hq =>
    exact of_grownTo (h.grow hp hq.adds (List.forall_mem_nil _) fun e he =>
      absurd he Links.not_mem_none) hq.context
  | marks => exact { h with }
  | obeys hs _ hq => exact h.obeys hp hascending hscoped hdistinct ht hs hq (hplaces hs)
  | clears => exact h.beginCleared
  | sorts hs =>
    have hlt := Nodes.kind?_lt (hp.submit _ hs)
    exact h.keeps rfl (fun n => (sorted_replaces hp.sized hlt).owned .allEvent n) (.refl _) h.tied
      (.inl rfl)
  | unmarks =>
    exact h.keeps rfl (fun _ => rfl) (List.sublist_append_right _ _) (.none rfl) (.inl rfl)
  | endsState _ hq hctx =>
    exact of_grownTo (c := { p with packets := #[] }) { hattach rfl hq with } hctx
  | presents hq hctx => exact of_grownTo (hattach rfl hq) hctx
  | submitEnds _ hmarkers hscope =>
    refine h.keeps rfl (fun _ => rfl) ?_ ?_ (.inr rfl)
    · exact (List.Sublist.refl _).append (List.nil_sublist _)
    · exact .none hscope

end CaptureForest.Pass
