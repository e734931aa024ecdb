import CaptureForest.Proofs.Pass.Buffer
import CaptureForest.Proofs.Pass.Submit
import CaptureForest.Proofs.Pass.Apart

/-! # Markers in markers

Most markers own only what ends a run of packets. The exceptions are labels and the calls that
execute command buffers (`Nodes.Nests`): these alone stand on the marker stacks below the open
call, so they alone can own another marker (`Pass.Nested`). -/

namespace CaptureForest

namespace Nodes

variable {nodes : Nodes} {new : List Node} {n : Nat}

/-- The marker is a label with an end, or the call that executes command buffers. -/
def Nests (nodes : Nodes) (n : Nat) : Prop :=
  nodes.markerKind? n = some .beginEnd ∨
    nodes.aux? n = some (.marker .diveMetadata Command.executeCommands.id.toNat)

theorem aux?_lt {aux : Aux} (h : nodes.aux? n = some aux) : n < nodes.size := by
  obtain ⟨node, hn, -⟩ := Option.map_eq_some_iff.mp h
  exact (Array.getElem?_eq_some_iff.mp hn).1

theorem aux?_append_old (h : n < nodes.size) : Nodes.aux? (nodes ++ new) n = nodes.aux? n := by
  rw [aux?, getElem?_append_old h, aux?]

theorem aux?_append {aux : Aux} (h : nodes.aux? n = some aux) :
    Nodes.aux? (nodes ++ new) n = some aux := by
  rw [aux?, getElem?_append_old (aux?_lt h)]
  exact h

theorem aux?_append_head {node : Node} : Nodes.aux? (nodes ++ node :: new) nodes.size =
    some node.aux := by
  rw [aux?, getElem?_append_head]
  rfl

theorem Nests.append (h : nodes.Nests n) : Nodes.Nests (nodes ++ new) n := by
  refine h.imp (fun hk => ?_) aux?_append
  obtain ⟨aux, haux, hk⟩ := Option.bind_eq_some_iff.mp hk
  rw [markerKind?, aux?_append haux]
  exact hk

end Nodes

namespace Pass

variable {p q : Pass} {moved : List Nat} {new : List Node} {owned shared : Links} {submit n : Nat}

theorem callClosed_eq (h : p.openCall = none) : p.callClosed = p := by
  cases p
  simp_all [callClosed]

/-- The call that has been opened last is the one that is closed. -/
theorem callClosed_opened (h : p.openCall = none) : (p.opened n).callClosed = p := by
  cases p
  simp_all [callClosed, opened, pushed]

/-- Below the open call, the markers on the stacks are such that can own others, and no other
markers do. -/
structure Nested (p : Pass) : Prop where
  stacked : p.callClosed.Stacked p.nodes.Nests
  owned : ∀ {v n c}, v ∈ View.withEvents → c ∈ p.owned v n → p.nodes.kind? n = some .marker →
    p.nodes.Nests n ∨ ∃ k, p.nodes.kind? c = some k ∧ k.endsRun

namespace Nested

/-- New edges keep a pass nested if the new owners nest or the new children end runs. -/
theorem regroups (h : p.Nested) (hp : p.Sound) (hq : p.Regroups q moved new owned shared)
    (howned : ∀ {v n c}, v ∈ View.withEvents → (n, c) ∈ owned v →
      q.nodes.kind? n = some .marker →
      q.nodes.Nests n ∨ ∃ k, q.nodes.kind? c = some k ∧ k.endsRun) : (p.grownTo q).Nested where
  stacked := by
    refine { h.stacked.congr (q := p.callClosed) (fun m hm => ?_) rfl with }
    show q.nodes.Nests m
    rw [hq.nodes]
    exact hm.append
  owned {v n c} hv hc hn := by
    replace hc : c ∈ q.owned v n := hc
    rw [hq.owned, if_pos hv, List.mem_append, List.mem_filter, EdgeLog.mem_children] at hc
    rcases hc with ⟨hc, -⟩ | hc
    · obtain ⟨a, b, ha, hb, -⟩ := hp.arranged.fits hc
      obtain rfl : a = .marker := Option.some.inj ((hq.kind? ha).symm.trans hn)
      refine (h.owned hv hc ha).imp (fun hnests => ?_) fun ⟨k, hk, hends⟩ => ⟨k, hq.kind? hk, hends⟩
      show q.nodes.Nests n
      rw [hq.nodes]
      exact hnests.append
    · exact howned hv hc hn

/-- Nodes are attached to the submit or to a marker that can own markers. -/
theorem innermost (h : p.Nested) (hp : p.Sound) (hs : p.submit = some submit)
    (hm : p.nodes.kind? (p.callClosed.innermost submit) = some .marker) :
    p.nodes.Nests (p.callClosed.innermost submit) := by
  unfold Pass.innermost at hm ⊢
  cases hmarkers : p.callClosed.markers with
  | nil =>
    rw [hmarkers, List.headD_nil, hp.submit submit hs] at hm
    cases hm
  | cons m ms => exact h.stacked.markers m (by simp [hmarkers])

theorem bufferOwner (h : p.Nested) (hp : p.Sound) (hs : p.submit = some submit)
    (hm : p.nodes.kind? (p.callClosed.bufferOwner submit) = some .marker) :
    p.nodes.Nests (p.callClosed.bufferOwner submit) := by
  have hnot : p.nodes.kind? submit ≠ some .marker := by rw [hp.submit submit hs]; exact nofun
  unfold Pass.bufferOwner at hm ⊢
  split at hm
  · rename_i hin
    rw [if_pos hin]
    cases hscope : p.callClosed.scope with
    | none =>
      rw [hscope] at hm
      exact absurd hm hnot
    | some s => exact h.stacked.scope s hscope
  · exact absurd hm hnot

/-- A new marker below the innermost one, when the open call is closed. -/
theorem attach {node : Node} (h : p.Nested) (hp : p.Sound) (hs : p.submit = some submit)
    (hq : p.Adds q [node] (.on View.withEvents [(p.callClosed.innermost submit, p.nodes.size)])
      shared) : (p.callClosed.grownTo q).Nested := by
  obtain ⟨hstacked, howned⟩ := h.regroups hp hq.regroups_nil fun {v n c} _ hc hn => by
    obtain ⟨-, hc⟩ := Links.mem_on.mp hc
    cases List.mem_singleton.mp hc
    obtain ⟨k, hk, hor⟩ := hp.callClosed.innermost hs
    obtain rfl : k = .marker := Option.some.inj ((hq.kind? hk).symm.trans hn)
    rw [hq.nodes]
    exact .inl (h.innermost hp hs hk).append
  exact ⟨hstacked, howned⟩

theorem obeys {o : Options} {call : CallMarker} (h : p.Nested) (hp : p.Sound)
    (hs : p.submit = some submit) (hq : Obeys o submit call p q) : q.Nested := by
  cases hq with
  | beginsBuffer _ hq hctx =>
    have hb := h.regroups hp hq fun {v n c} _ hc hn => by
      rcases List.mem_cons.mp (Links.mem_on.mp hc).2 with heq | hc
      · cases heq
        obtain ⟨k, hk, hor⟩ := hp.callClosed.bufferOwner hs
        obtain rfl : k = .marker := Option.some.inj ((hq.kind? hk).symm.trans hn)
        rw [hq.nodes]
        exact .inl (h.bufferOwner hp hs hk).append
      · obtain ⟨c, hc, heq⟩ := List.mem_map.mp hc
        cases heq
        obtain ⟨e, he, rfl⟩ := List.mem_map.mp hc
        obtain ⟨k, hk, hends⟩ := hp.events e he
        exact .inr ⟨k, hq.kind? hk, hends⟩
    refine of_grownTo ?_ hctx
    rw [opened_grownTo]
    refine ⟨?_, hb.owned⟩
    rw [callClosed_opened rfl]
    exact { hb.stacked.scopeEntered rfl with }
  | endsBuffer _ hq hctx =>
    have hb := h.attach hp hs hq
    split at hctx
    · exact of_grownTo (c := p.callClosed.levelClosed) ⟨hb.stacked.levelClosed rfl, hb.owned⟩ hctx
    · exact of_grownTo hb hctx
  | beginsLabel _ hq hctx =>
    have hb := h.attach hp hs hq
    have hnests : q.nodes.Nests p.nodes.size := by
      rw [hq.nodes]
      exact .inl (by rw [Nodes.markerKind?, Nodes.aux?_append_head]; rfl)
    exact of_grownTo (c := { p.callClosed.pushed p.nodes.size with numLabels := p.numLabels + 1 })
      ⟨{ hb.stacked.pushed hnests rfl with }, hb.owned⟩ hctx
  | endsLabel => exact ⟨h.stacked.labelClosed rfl, h.owned⟩
  | insertsLabel _ hq hctx =>
    have hb := h.attach hp hs hq
    exact of_grownTo (c := { p.callClosed with numLabels := p.numLabels + 1 })
      ⟨{ hb.stacked with }, hb.owned⟩ hctx
  | opensCall _ hq hctx =>
    have hb := h.attach hp hs hq
    refine of_grownTo ?_ hctx
    rw [scopeBegun_grownTo, opened_grownTo]
    refine ⟨?_, hb.owned⟩
    have hclosed : ((p.callClosed.scopeEnded.grownTo q).opened p.nodes.size).callClosed =
        p.callClosed.scopeEnded.grownTo q := callClosed_opened rfl
    show Stacked q.nodes.Nests (Pass.scopeBegun
      ((p.callClosed.scopeEnded.grownTo q).opened p.nodes.size).callClosed call.command
      p.nodes.size)
    rw [hclosed]
    refine Stacked.scopeBegun { hb.stacked.scopeEnded with } _ fun hc => ?_
    show q.nodes.Nests p.nodes.size
    rw [hq.nodes]
    refine .inr ?_
    rw [Nodes.aux?_append_head, callNode, hc]
    rfl

end Nested

/-- A run of packets ends with a new node. -/
theorem Nested.endRun {node : Node} {parent : Nat} (h : p.Nested) (hp : p.Sound)
    (hq : p.Adds q [node] (.on View.withEvents [(parent, p.nodes.size)]) shared)
    (hends : node.kind.endsRun) : (p.grownTo q).Nested :=
  h.regroups hp hq.regroups_nil fun {v n c} _ hc _ => by
    cases List.mem_singleton.mp (Links.mem_on.mp hc).2
    exact .inr ⟨node.kind, hq.kind?_new 0, hends⟩

/-- No change lets another marker own markers. -/
theorem Change.nested (hc : p.Change q) (hp : p.Sound) (h : p.Nested) : q.Nested := by
  -- An owner that is no marker does not count.
  have hbelow {parent : Nat} {k : NodeKind} {node : Node} {r : Pass} {shared : Links}
      (hr : p.Adds r [node] (.on View.withEvents [(parent, p.nodes.size)]) shared)
      (hk : p.nodes.kind? parent = some k) (hne : k ≠ .marker) : (p.grownTo r).Nested :=
    h.regroups hp hr.regroups_nil fun {v n c} _ hc hn => by
      cases List.mem_singleton.mp (Links.mem_on.mp hc).2
      cases hne (Option.some.inj ((hr.kind? hk).symm.trans hn))
  have hroot : p.nodes.kind? rootNode = some .root := hp.arranged.root.mpr rfl
  cases hc with
  | @submitBegins _ s _ _ _ _ hq hctx =>
    have hb := h.regroups hp hq.regroups_nil fun {v n c} hv hc hn => by
      rcases List.mem_append.mp hc with hc | hc
      · have hv' := (Links.mem_on.mp hc).1
        rw [List.mem_singleton.mp hv'] at hv
        exact absurd hv (by decide)
      · cases List.mem_singleton.mp (Links.mem_on.mp hc).2
        cases (hq.kind? hroot).symm.trans hn
    exact of_grownTo (c := { p with submit := some p.nodes.size })
      ⟨{ hb.stacked with }, hb.owned⟩ hctx
  | enters _ hq =>
    obtain ⟨draw, constant, hctx⟩ := hq.context_eq
    have hb := h.regroups hp hq.adds.regroups_nil fun {v n c} hv hc _ =>
      absurd hv (not_mem_withEvents (Links.mem_on.mp hc).1)
    exact of_grownTo (c := { p.beginCleared with
        onConstantEngine := _
        drawIbs := draw
        constantIbs := constant })
      ⟨{ hb.stacked with }, hb.owned⟩ hctx
  | leaves =>
    obtain ⟨draw, constant, hibs⟩ := p.modifyIbs_eq List.tail
    have hpopped : p.popped.Stacked p.nodes.Nests := by
      rw [popped, hibs]
      exact { h.stacked with }
    have hstacked : p.popped.scopeLeft.beginCleared.Stacked p.nodes.Nests :=
      { hpopped.scopeLeft rfl with }
    obtain ⟨_, _, scope, markers, internal, hleft⟩ := p.left_eq
    rw [hleft] at hstacked ⊢
    refine ⟨?_, h.owned⟩
    rw [callClosed_eq rfl]
    exact hstacked
  | logs _ _ hq =>
    have hb := h.regroups hp hq.adds.regroups_nil fun {v n c} _ hc hn => by
      obtain ⟨hle, -⟩ := le_of_mem_packetLog (Links.mem_on.mp hc).2
      obtain ⟨i, rfl⟩ := Nat.exists_eq_add_of_le hle
      rw [hq.adds.kind?_new] at hn
      obtain ⟨node, hi, hk⟩ := Option.map_eq_some_iff.mp hn
      rcases List.mem_cons.mp (List.mem_of_getElem? hi) with rfl | hnode
      · cases hk
      · rcases packetBelow_kind hnode with hk' | hk' <;> cases hk'.symm.trans hk
    exact of_grownTo (c := p.packetWaits p.nodes.size) ⟨{ hb.stacked with }, hb.owned⟩ hq.context
  | works _ hq =>
    cases hq with
    | @sync _ op sync _ _ hq hctx =>
      have hb := h.endRun hp hq rfl
      exact of_grownTo (c := { p with
          packets := #[]
          beginEvents := p.beginEvents.push (p.pendingEvent _ p.nodes.size) })
        ⟨{ hb.stacked with }, hb.owned⟩ hctx
    | event _ _ hq hctx =>
      have hb := h.endRun hp hq rfl
      exact of_grownTo (c := { p with
          numEvents := p.numEvents + 1
          events := p.events.push p.nodes.size
          packets := #[]
          beginEvents := p.beginEvents.push (p.pendingEvent _ p.nodes.size) })
        ⟨{ hb.stacked with }, hb.owned⟩ hctx
    | nothing => exact h
  | shares _ hq => 
    exact of_grownTo (h.regroups hp hq.adds.regroups_nil fun _ hc =>
      absurd hc Links.not_mem_none) hq.context
  | marks => exact ⟨{ h.stacked with }, h.owned⟩
  | obeys hs _ hq => exact h.obeys hp hs hq
  | clears => exact ⟨{ h.stacked with }, h.owned⟩
  | sorts hs =>
    have hlt := Nodes.kind?_lt (hp.submit _ hs)
    exact ⟨{ h.stacked with }, fun {v n c} hv hc hn =>
      h.owned hv ((sorted_perm hp.sized hlt v n).mem_iff.mp hc) hn⟩
  | unmarks => exact ⟨⟨by simp [callClosed, Pass.unmarked], rfl,
      by simp [callClosed], by simp [callClosed, Pass.unmarked]⟩, h.owned⟩
  | endsState hs hq hctx =>
    have hb := hbelow hq (hp.submit _ hs) (by decide)
    exact of_grownTo (c := { p with packets := #[] }) ⟨{ hb.stacked with }, hb.owned⟩ hctx
  | presents hq hctx => exact of_grownTo (hbelow hq hroot (by decide)) hctx
  | submitEnds => exact ⟨{ h.stacked with }, h.owned⟩

end Pass

end CaptureForest
