import CaptureForest.Proofs.Pass.Levels

/-! # The reach of scopes

`Walk.depth` counts the buffers that a walk has open, chained ones included, and a pass counts them
the same way. `Pass.reach` is the call of the scope with its depth, and `Turns.reach_iff` is what a
step leaves of it. -/

namespace CaptureForest

namespace Walk

/-- The sizes of the open runs of buffers behind a step, the innermost first. -/
def sizesAfter (sizes : List Nat) : Step → List Nat
  | .enter _ _ .normal | .enter _ _ .call => 1 :: sizes
  | .enter _ _ .chain =>
    match sizes with
    | [] => [1]
    | n :: ns => (n + 1) :: ns
  | .leave _ _ => sizes.tail
  | .packet .. => sizes

/-- The sizes of the open runs of buffers behind some steps. -/
def runSizes (t : List Step) : List Nat := t.foldl sizesAfter []

/-- The number of open buffers behind some steps. A chained buffer is open as long as the buffer that
its run began with. -/
def depth (t : List Step) : Nat := (runSizes t).foldr (· + ·) 0

theorem runSizes_append {t : List Step} {x : Step} :
    runSizes (t ++ [x]) = sizesAfter (runSizes t) x := by
  rw [runSizes, List.foldl_append]
  rfl

end Walk

theorem IbStack.depth_eq (s : IbStack) : s.depth = (s.map IbRun.size).foldr (· + ·) 0 := by
  induction s with
  | nil => rfl
  | cons r s ih => rw [IbStack.depth_cons, ih, List.map_cons, List.foldr_cons]

theorem IbStack.sizes_push {s : IbStack} {node ibIndex : Nat} {ib : IndirectBuffer}
    (kind : IbKind) : (s.push node kind).map IbRun.size =
      Walk.sizesAfter (s.map IbRun.size) (.enter ibIndex ib kind) := by
  cases kind with
  | normal | call => rfl
  | chain =>
    cases s with
    | nil => rfl
    | cons r s => simp [IbStack.push, Walk.sizesAfter, IbRun.size]

/-- The command whose call a step records. -/
def Step.command? (m : Reader) (index : Nat) (x : Step) : Option Command :=
  (x.call? m index).map (·.command)

namespace Pass

variable {p q : Pass} {o : Options} {m : Reader} {index submit a d : Nat} {x : Step}

theorem popped_ibs : p.popped.scopeLeft.beginCleared.ibs = p.ibs.tail := by
  obtain ⟨_, _, _, heq⟩ := p.popped.scopeLeft_eq
  have hsite : p.popped.scopeLeft.beginCleared.site = p.popped.site := (congrArg site heq :)
  exact (ibs_of_site hsite).trans modifyIbs_ibs

/-- The stack of a pass changes as the open buffers of the walk do. -/
theorem Turns.sizes (h : Turns o m index submit p x q) (hp : p.Sound)
    (hs : p.submit = some submit) :
    q.ibs.map IbRun.size = Walk.sizesAfter (p.ibs.map IbRun.size) x := by
  cases h with
  | enter hq => rw [hq.ibs_eq, IbStack.sizes_push]
  | leave => rw [popped_ibs, List.map_tail]; rfl
  | skip => rfl
  | packet _ hq =>
    obtain ⟨-, _, _, -, hfiles⟩ := hq.sound hp hs
    rw [ibs_of_site hfiles.site]
    rfl

/-! ## Scopes -/

/-- The call of the scope, with the depth at which it was recorded. -/
def reach (p : Pass) : Option (Nat × Nat) := p.scope.map fun s => (s.call, s.depth)

theorem reach_levelOpened : p.levelOpened.reach = p.reach := by
  simp only [reach, levelOpened, Option.map_map]
  rfl

theorem reach_levelClosed : p.levelClosed.reach = p.reach := by
  simp only [reach, levelClosed, Option.map_map]
  rfl

theorem reach_scopeEntered : p.scopeEntered.reach = p.reach := by
  rw [scopeEntered_eq]
  split
  · exact reach_levelOpened
  · rfl

theorem reach_scopeEnded :
    p.scopeEnded.reach = some (a, d) ↔ p.reach = some (a, d) ∧ d ≠ p.ibDepth := by
  unfold reach scopeEnded
  cases hs : p.scope with
  | none => simp
  | some s =>
    by_cases hd : s.depth = p.ibDepth
    · simpa [hd] using fun _ (h : p.ibDepth = d) => h.symm
    · simpa [hd] using fun _ (h : s.depth = d) => h ▸ hd

theorem reach_scopeLeft :
    p.scopeLeft.reach = some (a, d) ↔ p.reach = some (a, d) ∧ d ≤ p.ibDepth := by
  unfold scopeLeft
  cases hs : p.scope with
  | none => simp [reach, hs]
  | some s =>
    have hreach : p.reach = some (s.call, s.depth) := by rw [reach, hs]; rfl
    have hclosed : p.levelClosed.reach = some (s.call, s.depth) := reach_levelClosed.trans hreach
    dsimp only
    split
    · rename_i hlt
      simpa [reach, hs] using fun _ (h : s.depth = d) => h ▸ hlt
    · rename_i hge
      have hle : s.depth ≤ p.ibDepth := Nat.le_of_not_lt hge
      have hd : s.depth = d → d ≤ p.ibDepth := fun h => h ▸ hle
      split
      · simpa [hclosed, hreach] using fun _ => hd
      · simpa [hreach] using fun _ => hd

/-- What a recorded call leaves of the scope, if it does not begin one. -/
theorem Obeys.reach_iff {call : CallMarker} (h : Obeys o submit call p q)
    (hcall : call.command ≠ .executeCommands) :
    q.reach = some (a, d) ↔ p.reach = some (a, d) ∧ (call.command.isOther → d ≠ p.ibDepth) := by
  have hclosed : p.callClosed.reach = p.reach := rfl
  -- The scope is kept by all calls that are not among the others.
  have hkept (hq : q.reach = p.reach) (hother : call.command.isOther = false) :
      q.reach = some (a, d) ↔
        p.reach = some (a, d) ∧ (call.command.isOther → d ≠ p.ibDepth) := by
    rw [hq, hother]
    simp
  cases h with
  | beginsBuffer hc _ hctx =>
    refine hkept ((congrArg reach hctx :).trans ?_) (by rw [hc]; rfl)
    exact reach_scopeEntered (p := p.callClosed)
  | endsBuffer hc _ hctx =>
    refine hkept ((congrArg reach hctx :).trans ?_) (by rw [hc]; rfl)
    show reach (if _ then _ else _) = p.reach
    split
    · exact reach_levelClosed (p := p.callClosed)
    · rfl
  | beginsLabel hc _ hctx =>
    exact hkept (congrArg reach hctx :) (by simp [Command.isOther, hc])
  | endsLabel hc => exact hkept rfl (by simp [Command.isOther, hc])
  | insertsLabel hc _ hctx =>
    exact hkept (congrArg reach hctx :) (by simp [Command.isOther, hc])
  | opensCall hc _ hctx =>
    have hbegun : q.reach = p.callClosed.scopeEnded.reach := by
      refine (congrArg reach hctx :).trans ?_
      show Option.map _ (if call.command = .executeCommands then _ else _) = _
      rw [if_neg hcall]
      rfl
    rw [hbegun, reach_scopeEnded, hc, hclosed]
    exact and_congr_right fun _ => ⟨fun hd _ => hd, fun hd => hd rfl⟩

/-- A scope is in one of the open buffers. -/
theorem Scoped.le_of_reach (h : p.Scoped) (hr : p.reach = some (a, d)) : d ≤ p.ibDepth := by
  obtain ⟨s, hs, heq⟩ := Option.map_eq_some_iff.mp hr
  cases heq
  exact (h s hs).le

/-- A scope ends with the run of buffers that its call was recorded in, and with another call at the
same depth. -/
theorem Turns.reach_iff (h : Turns o m index submit p x q) (hp : p.Scoped)
    (hx : ¬x.Executes m index) :
    q.reach = some (a, d) ↔ p.reach = some (a, d) ∧ d ≤ q.ibDepth ∧
      ((x.command? m index).any Command.isOther → d ≠ p.ibDepth) := by
  -- The depth matters only where buffers are left.
  have hstays (hle : p.ibDepth ≤ q.ibDepth) (hq : q.reach = some (a, d) ↔
        p.reach = some (a, d) ∧ ((x.command? m index).any Command.isOther → d ≠ p.ibDepth)) :
      q.reach = some (a, d) ↔ p.reach = some (a, d) ∧ d ≤ q.ibDepth ∧
        ((x.command? m index).any Command.isOther → d ≠ p.ibDepth) := by
    rw [hq]
    exact and_congr_right fun hr =>
      (and_iff_right (Nat.le_trans (hp.le_of_reach hr) hle)).symm
  have hnone (hc : x.call? m index = none) (hq : q.reach = p.reach) : q.reach = some (a, d) ↔
      p.reach = some (a, d) ∧ ((x.command? m index).any Command.isOther → d ≠ p.ibDepth) := by
    rw [hq, Step.command?, hc]
    exact (and_iff_left fun hany => by cases hany).symm
  cases h with
  | enter hq =>
    obtain ⟨_, _, hctx⟩ := hq.context_eq
    refine hstays ?_ (hnone rfl (congrArg reach hctx :))
    rw [ibDepth, ibDepth, hq.ibs_eq, IbStack.depth_push]
    exact Nat.le_succ _
  | leave =>
    have hreach : p.popped.reach = p.reach := congrArg (Option.map _) popped_scope
    have hleft := reach_scopeLeft (p := p.popped) (a := a) (d := d)
    have hdepth : p.popped.scopeLeft.beginCleared.ibDepth = p.popped.ibDepth := by
      rw [ibDepth, popped_ibs, ibDepth]
      exact congrArg IbStack.depth modifyIbs_ibs.symm
    rw [hreach] at hleft
    rw [hdepth]
    exact hleft.trans (and_congr_right fun _ => (and_iff_left fun hany => by cases hany).symm)
  | skip => exact hstays (Nat.le_refl _) (hnone Step.call?_unknown rfl)
  | @packet ibIndex _ _ _ _ _ hq =>
    cases hq with
    | works hb hw hc hr hs hq =>
      have hcall : (Step.packet ibIndex _ _ _).call? m index = none :=
        (Step.call?_packet hw).trans hc
      obtain ⟨hibs, hlevels⟩ := Runs.of_call?_eq_none (.works hb hw hc hr hs hq) hcall
      refine hstays ?_ (hnone hcall (congrArg (fun l : Levels => l.scope.map _) hlevels :))
      rw [ibDepth, ibDepth, hibs]
    | @obeys _ words call r s _ hw hc hr hs =>
      have hcommand : (Step.packet ibIndex _ _ _).command? m index = some call.command :=
        congrArg (Option.map _) ((Step.call?_packet hw).trans hc)
      have hreach : r.marked.reach = p.reach := (congrArg reach hr.context :)
      have hdepth : r.marked.ibDepth = p.ibDepth := (congrArg ibDepth hr.context :)
      have hdepth' : s.ibDepth = r.marked.ibDepth := (congrArg ibDepth hs.still_eq :)
      have hiff := hs.reach_iff (a := a) (d := d) fun heq =>
        hx (hcommand.trans (congrArg some heq))
      rw [hreach, hdepth] at hiff
      refine hstays (Nat.le_of_eq (hdepth.symm.trans hdepth'.symm)) ?_
      rw [hcommand]
      exact hiff

end Pass

/-! ## Command buffers that begin -/

/-- The node is the marker of a call that begins a command buffer. -/
def Nodes.Begins (nodes : Nodes) (n : Nat) : Prop :=
  nodes.aux? n = some (.marker .diveMetadata Command.beginCommandBuffer.id.toNat)

instance {nodes : Nodes} {n : Nat} : Decidable (nodes.Begins n) :=
  inferInstanceAs (Decidable (_ = _))

theorem Nodes.Begins.append {nodes : Nodes} {new : List Node} {n : Nat}
    (h : Nodes.Begins (nodes ++ new) n) : nodes.Begins n ∨
      ∃ i node, n = nodes.size + i ∧ new[i]? = some node ∧
        node.aux = .marker .diveMetadata Command.beginCommandBuffer.id.toNat := by
  obtain ⟨node, hnode, haux⟩ := Option.map_eq_some_iff.mp h
  rcases Nat.lt_or_ge n nodes.size with hlt | hge
  · rw [getElem?_append_old hlt] at hnode
    exact .inl (Option.map_eq_some_iff.mpr ⟨node, hnode, haux⟩)
  · obtain ⟨i, rfl⟩ := Nat.exists_eq_add_of_le hge
    rw [getElem?_append_new] at hnode
    exact .inr ⟨i, node, rfl, hnode, haux⟩

theorem Command.id_ne_of_isOther {c : Command} (h : c.isOther) :
    c.id.toNat ≠ Command.beginCommandBuffer.id.toNat := by
  revert h
  cases c <;> decide

namespace Pass

variable {p q : Pass} {o : Options} {m : Reader} {index submit n : Nat} {x : Step}

/-- Nodes that are no markers begin no command buffer. -/
theorem begins_of_adds {new : List Node} {owned shared : Links} (h : p.Adds q new owned shared)
    (hnew : ∀ node ∈ new, node.aux.markerKind? = none) (hn : q.nodes.Begins n) :
    p.nodes.Begins n := by
  rw [h.nodes] at hn
  rcases hn.append with hn | ⟨i, node, -, hi, haux⟩
  · exact hn
  · have hkind := hnew node (List.mem_of_getElem? hi)
    rw [haux] at hkind
    cases hkind

/-- The marker of a command buffer that begins is new, and becomes the open call. -/
theorem Obeys.begins_cases {call : CallMarker} (h : Obeys o submit call p q)
    (hn : q.nodes.Begins n) : p.nodes.Begins n ∨ call.command = .beginCommandBuffer ∧
      q.openCall = some n ∧ n ∈ q.owned .allEvent (p.callClosed.bufferOwner submit) := by
  -- Another new node would have to have the data of this one.
  have hother {node : Node} (hq : q.nodes = p.nodes ++ [node])
      (haux : node.aux ≠ .marker .diveMetadata Command.beginCommandBuffer.id.toNat) :
      p.nodes.Begins n := by
    rw [hq] at hn
    refine hn.append.resolve_right ?_
    rintro ⟨i, node', -, hi, haux'⟩
    exact haux (List.mem_singleton.mp (List.mem_of_getElem? hi) ▸ haux')
  cases h with
  | beginsBuffer hc hq hctx =>
    rw [hq.nodes] at hn
    rcases hn.append with hn | ⟨i, node, rfl, hi, -⟩
    · exact .inl hn
    · obtain rfl : i = 0 := by
        have := (List.getElem?_eq_some_iff.mp hi).1
        rwa [List.length_singleton, Nat.lt_one_iff] at this
      exact .inr ⟨hc, (congrArg Pass.openCall hctx :),
        hq.mem_owned.mpr (.inr ⟨by decide, .inl ⟨rfl, rfl⟩⟩)⟩
  | endsBuffer hc hq =>
    refine .inl (hother hq.nodes ?_)
    rw [callNode, hc]
    exact fun heq => absurd (Aux.marker.inj heq).2 (by decide)
  | beginsLabel _ hq | insertsLabel _ hq => exact .inl (hother hq.nodes fun heq => by cases heq)
  | endsLabel => exact .inl hn
  | opensCall hc hq =>
    refine .inl (hother hq.nodes fun heq => ?_)
    injection heq with _ hid
    exact Command.id_ne_of_isOther hc hid

/-- A marker of a command buffer that begins was there before, or the step begins it. -/
theorem Turns.begins_cases (h : Turns o m index submit p x q) (hn : q.nodes.Begins n) :
    p.nodes.Begins n ∨ x.command? m index = some .beginCommandBuffer ∧
      q.openCall = some n ∧ n ∈ q.owned .allEvent (p.bufferOwner submit) := by
  have hpacket {o : Options} {buffer va : Nat} {kind : PacketKind} {header : UInt32}
      {words : Array UInt32} {r : Pass} (hr : Logs o submit buffer va kind header words p r)
      (hn : r.nodes.Begins n) : p.nodes.Begins n := by
    refine begins_of_adds hr.adds (fun node hnode => ?_) hn
    rcases List.mem_cons.mp hnode with rfl | hnode
    · rfl
    · obtain ⟨k, line, -, rfl⟩ := of_mem_packetBelow hnode
      rfl
  cases h with
  | enter hq => exact .inl (begins_of_adds hq.adds (by simp [bufferNode, Aux.markerKind?]) hn)
  | leave =>
    obtain ⟨_, _, _, _, _, hleft⟩ := p.left_eq
    rw [hleft] at hn
    exact .inl hn
  | skip => exact .inl hn
  | packet _ hq =>
    cases hq with
    | works _ _ _ hr hs hq =>
      refine .inl (hpacket hr ?_)
      have hn := begins_of_adds hq.adds (List.forall_mem_nil _) hn
      cases hs with
      | sync _ _ hs => exact begins_of_adds hs (by simp [syncNode, Aux.markerKind?]) hn
      | event _ _ hs => exact begins_of_adds hs (by simp [eventNode, Aux.markerKind?]) hn
      | nothing => exact hn
    | @obeys _ _ call r _ _ hw hc hr hs =>
      have howner : r.marked.callClosed.bufferOwner submit = p.bufferOwner submit :=
        (congrArg (Pass.bufferOwner · submit) hr.context :)
      rcases hs.begins_cases hn with hn | ⟨hbegin, hopen, hmem⟩
      · exact .inl (hpacket hr hn)
      · refine .inr ⟨?_, hopen, howner ▸ hmem⟩
        rw [Step.command?, Step.call?_packet hw, hc, ← hbegin]
        rfl

/-! ## Markers stay where they are -/

/-- No change takes nodes away. -/
theorem Change.nodes (hc : p.Change q) : ∃ new : List Node, q.nodes = p.nodes ++ new := by
  have hsame {r : Pass} (hr : r.nodes = p.nodes) : ∃ new : List Node, r.nodes = p.nodes ++ new :=
    ⟨[], hr.trans Array.appendList_nil.symm⟩
  cases hc with
  | submitBegins _ _ hq => exact ⟨_, hq.nodes⟩
  | enters _ hq => exact ⟨_, hq.adds.nodes⟩
  | leaves =>
    obtain ⟨_, _, _, _, _, hleft⟩ := p.left_eq
    exact hsame (by rw [hleft]; rfl)
  | logs _ _ hq => exact ⟨_, hq.adds.nodes⟩
  | works _ hq =>
    cases hq with
    | sync _ _ hq | event _ _ hq => exact ⟨_, hq.nodes⟩
    | nothing => exact hsame rfl
  | shares _ hq => exact ⟨_, hq.adds.nodes⟩
  | obeys _ _ hq => exact hq.nodes
  | endsState _ hq | presents hq => exact ⟨_, hq.nodes⟩
  | marks | clears | sorts | unmarks | submitEnds => exact hsame rfl

/-- No change takes a marker from its owner. -/
theorem Change.owned_marker {v : View} {parent : Nat} (hc : p.Change q) (hp : p.Sound)
    (hn : p.nodes.kind? n = some .marker) (h : n ∈ p.owned v parent) :
    n ∈ q.owned v parent := by
  have hadds {r : Pass} {new : List Node} {owned shared : Links}
      (hr : p.Adds r new owned shared) : n ∈ r.owned v parent := by
    rw [hr.owned]
    exact List.mem_append_left _ h
  cases hc with
  | submitBegins _ _ hq => exact hadds hq
  | enters _ hq => exact hadds hq.adds
  | leaves =>
    obtain ⟨_, _, _, _, _, hleft⟩ := p.left_eq
    rw [hleft]
    exact h
  | logs _ _ hq => exact hadds hq.adds
  | works _ hq =>
    cases hq with
    | sync _ _ hq | event _ _ hq => exact hadds hq
    | nothing => exact h
  | shares _ hq => exact hadds hq.adds
  | obeys _ _ hq =>
    cases hq with
    | beginsBuffer _ hq =>
      refine hq.mem_owned.mpr (.inl ⟨h, fun _ hmoved => ?_⟩)
      obtain ⟨e, he, rfl⟩ := List.mem_map.mp hmoved
      obtain ⟨k, hk, hends⟩ := hp.events e he
      cases hn.symm.trans hk
      cases hends
    | endsBuffer _ hq | beginsLabel _ hq | insertsLabel _ hq | opensCall _ hq => exact hadds hq
    | endsLabel => exact h
  | sorts hs =>
    exact (sorted_perm hp.sized (Nodes.kind?_lt (hp.submit _ hs)) v parent).mem_iff.mpr h
  | endsState _ hq | presents hq => exact hadds hq
  | marks | clears | unmarks | submitEnds => exact h

theorem Course.nodes (h : p.Course q) : ∃ new : List Node, q.nodes = p.nodes ++ new := by
  refine h.induct (I := fun r => ∃ new : List Node, r.nodes = p.nodes ++ new)
    ⟨[], Array.appendList_nil.symm⟩ fun _ hc ⟨new, hr⟩ => ?_
  obtain ⟨more, hmore⟩ := hc.nodes
  exact ⟨new ++ more, by rw [hmore, hr, Nodes.append_append_list]⟩

/-- Behind any changes a marker has the owner that it had. -/
theorem Course.owned_marker {v : View} {parent : Nat} (hc : p.Course q)
    (hn : p.nodes.kind? n = some .marker) (h : n ∈ p.owned v parent) : n ∈ q.owned v parent := by
  have hq := hc.induct (I := fun r => r.nodes.kind? n = some .marker ∧ n ∈ r.owned v parent)
    ⟨hn, h⟩ fun hr hc' ⟨hn, h⟩ => by
      obtain ⟨_, hnodes⟩ := hc'.nodes
      exact ⟨hnodes ▸ Nodes.kind?_append hn, hc'.owned_marker hr hn h⟩
  exact hq.2

end Pass

end CaptureForest
