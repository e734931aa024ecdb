import CaptureForest.Proofs.Pass.Steps

/-! # Submits that begin and end

A submit gets a node below its engine and below the root. At its end everything that was left open
is closed. `Pass.Keeps` says that nothing was filed in between. -/

namespace CaptureForest.Pass

variable {p q r : Pass} {new : List Node} {owned : Links} {submit : Nat}

/-- Between `p` and `q` no submit begins and no packet is executed. Buffers, submits and markers
share what they shared before. -/
structure Keeps (p q : Pass) : Prop where
  engines : q.engines = p.engines
  nodes : ∃ new : List Node, q.nodes = p.nodes ++ new ∧
    ∀ node ∈ new, node.kind ≠ .submit ∧ node.kind ≠ .packet ∧ node.kind ≠ .marker
  shared : ∀ v ∈ View.withBuffers, ∀ n, q.shared v n = p.shared v n
  submits : ∀ v n, p.nodes.kind? n = some .submit → q.shared v n = p.shared v n
  markers : ∀ v n, p.nodes.kind? n = some .marker → q.shared v n = p.shared v n

namespace Keeps

theorem refl (p : Pass) : p.Keeps p where
  engines := rfl
  nodes := ⟨[], Array.appendList_nil.symm, by simp⟩
  shared _ _ _ := rfl
  submits _ _ _ := rfl
  markers _ _ _ := rfl

theorem trans (h : p.Keeps q) (h' : q.Keeps r) : p.Keeps r := by
  obtain ⟨new, hnew, hkinds⟩ := h.nodes
  obtain ⟨more, hmore, hkinds'⟩ := h'.nodes
  exact {
    engines := h'.engines.trans h.engines
    nodes := ⟨new ++ more, by rw [hmore, hnew, Nodes.append_append_list],
      fun node hn => (List.mem_append.mp hn).elim (hkinds node) (hkinds' node)⟩
    shared := fun v hv n => (h'.shared v hv n).trans (h.shared v hv n)
    submits := fun v n hn =>
      (h'.submits v n (by rw [hnew]; exact Nodes.kind?_append hn)).trans (h.submits v n hn)
    markers := fun v n hn =>
      (h'.markers v n (by rw [hnew]; exact Nodes.kind?_append hn)).trans (h.markers v n hn) }

end Keeps

theorem Adds.keeps {more : EdgeLog} (hq : p.Adds q new owned (.on View.withEvents more))
    (hnew : ∀ node ∈ new, node.kind ≠ .submit ∧ node.kind ≠ .packet ∧ node.kind ≠ .marker)
    (hmore : ∀ e ∈ more, p.nodes.size ≤ e.1) (hengines : q.engines = p.engines) : p.Keeps q := by
  have hold (v : View) {n : Nat} {k : NodeKind} (hn : p.nodes.kind? n = some k) :
      q.shared v n = p.shared v n := by
    have : ((Links.on View.withEvents more) v).children n = [] := by
      refine List.eq_nil_iff_forall_not_mem.mpr fun c hc => ?_
      have hle := hmore _ (Links.mem_on.mp (EdgeLog.mem_children.mp hc)).2
      exact Nat.not_lt.mpr hle (Nodes.kind?_lt hn)
    rw [hq.shared, this, List.append_nil]
  exact {
    engines := hengines
    nodes := ⟨new, hq.nodes, hnew⟩
    shared := fun v hv n => by
      rw [hq.shared, Links.on_apply, if_neg (not_mem_withEvents hv)]
      exact List.append_nil _
    submits := fun v _ hn => hold v hn
    markers := fun v _ hn => hold v hn }

theorem Adds.keeps_none (hq : p.Adds q new owned .none)
    (hnew : ∀ node ∈ new, node.kind ≠ .submit ∧ node.kind ≠ .packet ∧ node.kind ≠ .marker)
    (hengines : q.engines = p.engines) : p.Keeps q := by
  rw [← Links.on_nil View.withEvents] at hq
  exact hq.keeps hnew (by simp) hengines

/-! ## The begin -/

theorem submitStart_succeeds {s : Submit} {engine : Nat} (h : p.Sound)
    (he : p.engines.lookup s.engine = some engine) (index : Nat) :
    Succeeds (submitStart index s) p fun _ q => q.Sound ∧
      p.Adds q [submitNode index s] (submitLinks engine p.nodes.size) .none ∧
      q.context = { p.context with submit := some p.nodes.size } := by
  have hengine : p.nodes.kind? engine = some .engine := by
    obtain ⟨before, after, heq, -⟩ := List.lookup_eq_some_iff.mp he
    exact h.engines s.engine engine (by simp [heq])
  have hroot : p.nodes.kind? rootNode = some .root := h.arranged.root.mpr rfl
  unfold submitStart
  refine leads_bind.mpr (leads_get.mpr (leads_bind.mpr ?_))
  rw [he]
  refine leads_pure.mpr ((addNode_succeeds h.sized (submitNode index s)).bind ?_)
  rintro _ q ⟨rfl, hq, hctx⟩
  have hnode := Nodes.kind?_lt (hq.kind?_new 0)
  refine (addOwned_succeeds hq.sized (by decide) (Nodes.kind?_lt (hq.kind? hengine)) hnode).bind ?_
  rintro _ r ⟨hr, hctx'⟩
  replace hr := hq.trans hr
  refine (addOwned_succeeds hr.sized (by decide) (Nodes.kind?_lt (hr.kind? hroot))
    (Nodes.kind?_lt (hr.kind?_new 0))).bind ?_
  rintro _ s' ⟨hs, hctx''⟩
  have hall : p.Adds s' [submitNode index s] (submitLinks engine p.nodes.size) .none := hr.trans hs
  have hattached : Attached p.nodes [submitNode index s] (submitLinks engine p.nodes.size) := by
    refine .single nofun fun v => ?_
    cases v with
    | engine => exact .inr ⟨engine, .engine, rfl, hengine, rfl⟩
    | submit | allEvent | rgp => exact .inr ⟨rootNode, .root, rfl, hroot, rfl⟩
    | vulkanCall => exact .inl ⟨rfl, (by decide : ¬View.places .vulkanCall .submit)⟩
    | vulkanEvent => exact .inl ⟨rfl, (by decide : ¬View.places .vulkanEvent .submit)⟩
  have hb := h.grownTo hall hattached nofun
  have hctx := hctx''.trans (hctx'.trans hctx)
  refine leads_modify.mpr ⟨?_, hall.congr rfl rfl rfl rfl, ?_⟩
  · refine .of_context (c := { p with submit := some p.nodes.size }) ?_ ?_
    · exact { hb with
        stacked := { hb.stacked with }
        submit := fun n hn => by cases hn; exact hall.kind?_new 0 }
    · exact congrArg (fun c : Pass => { c with submit := some p.nodes.size }) hctx
  · exact congrArg (fun c : Pass => { c with submit := some p.nodes.size }) hctx

/-! ## The end -/

theorem sorted_replaces (h : p.Sized) (hlt : submit < p.nodes.size) :
    p.Replaces (p.sorted submit) .submit fun n => if n = submit then
      (sortByIbIndex p.nodes (p.edges.submit.owned submit)).toList else p.owned .submit n :=
  (Replaces.refl h).setOwned (Nat.lt_of_lt_of_eq hlt (h .submit).symm) _

theorem sorted_perm (h : p.Sized) (hlt : submit < p.nodes.size) (v : View) (n : Nat) :
    ((p.sorted submit).owned v n).Perm (p.owned v n) := by
  rw [(sorted_replaces h hlt).owned]
  split
  · rename_i hv
    subst hv
    split
    · rename_i hn
      subst hn
      exact List.mergeSort_perm _ _
    · exact .refl _
  · exact .refl _

theorem Sound.sorted (h : p.Sound) (hs : p.submit = some submit) : (p.sorted submit).Sound := by
  have hlt := Nodes.kind?_lt (h.submit submit hs)
  have hq := sorted_replaces h.sized hlt
  exact { h with
    sized := hq.sized
    arranged := h.arranged.perm rfl (sorted_perm h.sized hlt) hq.shared
    stacked := { h.stacked with }
    eventOrder := fun v hv n => by
      have hne : v ≠ .submit := by rintro rfl; exact absurd hv (by decide)
      rw [hq.owned, if_neg hne]
      exact h.eventOrder v hv n }

/-- The text under which the packets behind the last event are listed. -/
def stateText (p : Pass) (submit : Nat) : String :=
  if (p.edges.allEvent.owned submit).isEmpty then "Postamble State" else "State"

/-- The packets behind the last event, if there are any, get a node. -/
theorem addPostamble_adds (h : p.Ready submit) :
    Succeeds (addPostamble submit) p fun _ q => if p.packets.isEmpty then q = p else
      p.Adds q [stateNode (p.stateText submit)] (.on View.withEvents [(submit, p.nodes.size)])
        (.on View.withEvents (p.packets.toList.map (p.nodes.size, ·))) ∧
      q.context = { p.context with packets := #[] } := by
  unfold addPostamble
  refine leads_bind.mpr (leads_get.mpr ?_)
  refine leads_ite.mpr ⟨fun hempty => ?_, fun hempty => ?_⟩
  · simp only [leads_pure, if_pos hempty]
  simp only [if_neg hempty]
  refine leads_bind.mpr (leads_get.mpr ?_)
  refine (addNode_succeeds h.sized (stateNode (p.stateText submit))).bind ?_
  rintro _ q ⟨rfl, hq, hctx⟩
  have hnode := Nodes.kind?_lt (hq.kind?_new 0)
  refine leads_bind.mpr (leads_modify.mpr ?_)
  rw [array_forM_eq]
  refine (forM_addShared_succeeds (p := { q with packets := #[] })
    (fun packet => (p.nodes.size, packet)) hq.sized (by decide)
    fun n hn => ⟨hnode, Nat.lt_of_lt_of_le (h.packets_lt n hn) hq.le_size⟩).bind ?_
  rintro _ r ⟨hr, hctx'⟩
  replace hr := hq.trans (hr.congr rfl rfl rfl rfl)
  refine (addOwned_succeeds hr.sized (by decide) (Nat.lt_of_lt_of_le h.submit_lt hr.le_size)
    (Nodes.kind?_lt (hr.kind?_new 0))).imp ?_
  rintro _ s ⟨hs', hctx''⟩
  have hall := hr.trans hs'
  simp only [Links.none_append, Links.append_none, List.append_nil] at hall
  exact ⟨hall, (hctx''.trans hctx').trans
    (congrArg (fun c : Pass => { c with packets := #[] }) hctx)⟩

theorem addPostamble_succeeds (h : p.Sound) (hs : p.submit = some submit) :
    Succeeds (addPostamble submit) p fun _ q => q.Sound ∧ p.Keeps q ∧ p.Course q ∧
      q.context = { p.context with packets := #[] } := by
  refine (addPostamble_adds (h.ready hs)).imp fun _ q hq => ?_
  split at hq
  · rename_i hempty
    subst hq
    refine ⟨h, .refl q, .refl q, ?_⟩
    rw [← Array.isEmpty_iff.mp hempty]
    rfl
  obtain ⟨hall, hctx⟩ := hq
  refine ⟨?_, hall.keeps ?_ ?_ (congrArg Pass.engines hctx :),
    .single h (.endsState hs hall hctx), hctx⟩
  · have hb := h.grownTo hall (.single_on (k := .postambleState) (h.submit submit hs) rfl
      (by decide) (by decide) (by decide)) fun {v n c} hc => by
        obtain ⟨c, hc, heq⟩ := List.mem_map.mp (Links.mem_on.mp hc).2
        cases heq
        exact hall.kind? (h.packets c hc)
    exact .of_context (c := { p with packets := #[] })
      { hb with stacked := { hb.stacked with }, packets := by simp [Pass.grownTo] } hctx
  · simp [stateNode]
  · intro e he
    obtain ⟨n, -, rfl⟩ := List.mem_map.mp he
    exact Nat.le_refl _

/-- A present gets a node below the root. -/
theorem addPresent_succeeds (h : p.Sized) (hroot : rootNode < p.nodes.size) (i : Nat)
    (present : Present) :
    Succeeds (do
      let node ← addNode { kind := .present, description := present.text i }
      addOwned View.withEvents rootNode node) p fun _ q =>
        p.Adds q [presentNode i present] (.on View.withEvents [(rootNode, p.nodes.size)]) .none ∧
          q.context = p.context := by
  refine (addNode_succeeds h (presentNode i present)).bind ?_
  rintro _ q ⟨rfl, hq, hctx⟩
  refine (addOwned_succeeds hq.sized (by decide) (Nat.lt_of_lt_of_le hroot hq.le_size)
    (Nodes.kind?_lt (hq.kind?_new 0))).imp ?_
  rintro _ r ⟨hr, hctx'⟩
  exact ⟨hq.trans hr, hctx'.trans hctx⟩

/-- The presents of a submit get nodes below the root. -/
theorem addPresents_succeeds (h : p.Sound) (index : Nat) :
    Succeeds (addPresents index) p fun _ q => q.Sound ∧ p.Keeps q ∧ p.Course q ∧
      q.context = p.context := by
  unfold addPresents
  refine leads_bind.mpr (leads_get.mpr ?_)
  refine Leads.forM_const ⟨h, .refl p, .refl p, rfl⟩ ?_
  rintro ⟨present, i⟩ - q ⟨hq, hkeeps, hcourse, hctx⟩
  refine leads_ite.mpr ⟨fun _ => ?_, fun _ => ⟨hq, hkeeps, hcourse, hctx⟩⟩
  have hroot : q.nodes.kind? rootNode = some .root := hq.arranged.root.mpr rfl
  refine (addPresent_succeeds hq.sized (Nodes.kind?_lt hroot) i present).imp ?_
  rintro _ s ⟨hs, hctxs⟩
  refine ⟨?_, hkeeps.trans (hs.keeps_none (by simp [presentNode]) ?_),
    hcourse.change hq (.presents hs hctxs), hctxs.trans hctx⟩
  · exact .of_context (hq.grownTo hs (.single_on (k := .present) hroot rfl (by decide) (by decide)
      (by decide)) nofun) hctxs
  · exact (congrArg Pass.engines hctxs :)

theorem Sound.unmarked (h : p.Sound) : p.unmarked.Sound :=
  { h with stacked := ⟨by simp [Pass.unmarked], rfl, nofun, nofun⟩ }

theorem Sound.submitClosed (h : p.Sound) : p.submitClosed.Sound :=
  { h with stacked := { h.stacked with }, submit := nofun, buffers := nofun }

/-- The pass when a submit has ended: nothing is open, and no packet waits. -/
def ended (p : Pass) : Pass := { p.unmarked.submitClosed.beginCleared with packets := #[] }

theorem submitEnd_succeeds (h : p.Sound) (hs : p.submit = some submit) (index : Nat) :
    Succeeds (submitEnd index) p fun _ q =>
      q.Sound ∧ p.Keeps q ∧ p.Course q ∧ q.context = p.ended.context := by
  have hshared := (sorted_replaces h.sized (Nodes.kind?_lt (h.submit submit hs))).shared
  have hsorted : p.Keeps (p.sorted submit).unmarked := {
    engines := rfl
    nodes := ⟨[], Array.appendList_nil.symm, by simp⟩
    shared := fun v _ n => hshared v n
    submits := fun v n _ => hshared v n
    markers := fun v n _ => hshared v n }
  have hunmarked : p.Course (p.sorted submit).unmarked :=
    (Course.single h (.sorts hs)).change (h.sorted hs) .unmarks
  unfold submitEnd openSubmit
  refine leads_bind.mpr (leads_bind.mpr (leads_get.mpr ?_))
  rw [hs]
  refine leads_pure.mpr (leads_bind.mpr (leads_bind.mpr (leads_get.mpr (leads_bind.mpr
    (leads_get.mpr (leads_modify.mpr (leads_bind.mpr (leads_modify.mpr ?_))))))))
  refine (addPostamble_succeeds (h.sorted hs).unmarked hs).bind ?_
  rintro _ q ⟨hq, hkeeps, hcourse, hctx⟩
  refine (addPresents_succeeds hq index).bind ?_
  rintro _ r ⟨hr, hkeeps', hcourse', hctx'⟩
  replace hctx := hctx'.trans hctx
  have hends : r.Change r.submitClosed.beginCleared :=
    .submitEnds (congrArg Pass.packets hctx :) (congrArg Pass.markers hctx :)
      (congrArg Pass.scope hctx :)
  refine leads_bind.mpr (leads_modify.mpr (leads_modify.mpr ⟨?_, ?_, ?_, ?_⟩))
  · exact hr.submitClosed.beginCleared
  · exact { (hsorted.trans hkeeps).trans hkeeps' with }
  · exact ((hunmarked.trans hcourse).trans hcourse').change hr hends
  · exact (congrArg (fun c : Pass => c.submitClosed.beginCleared) hctx :)

end CaptureForest.Pass
