import CaptureForest.Proofs.Pass.Lockstep

/-! # Buffers and submits in lockstep

A pass and the same pass in other numbers enter and leave buffers alike, and begin and end submits
alike (`Pass.Renames.step_agrees` and what is beside it). -/

namespace CaptureForest

namespace Pass

variable {R : Renaming} {o o' : Options} {p p' q q' : Pass} {submit : Nat}

/-! ## Buffers -/

/-- The owners below which the two passes list a buffer fit. -/
def OwnersFit (R : Renaming) (o o' : Options) (p p' : Pass) (submit ibIndex : Nat)
    (ib : IndirectBuffer) (kind : IbKind) : Prop :=
  Links.Carries R (p.nodes ++ [bufferNode ibIndex ib kind])
    (.on View.withBuffers
      [(ibOwner o (p.onEngine ib.constantEngine) submit kind, p.nodes.size)])
    (.on View.withBuffers
      [(ibOwner o' (p'.onEngine ib.constantEngine) (R submit) kind, p'.nodes.size)])

namespace Renames

/-- With equal options the owners of a buffer always fit. -/
theorem ownersFit (h : p.Renames R p') (o : Options) (submit ibIndex : Nat) (ib : IndirectBuffer)
    (kind : IbKind) : OwnersFit R o o p p' submit ibIndex ib kind := by
  have howner : ibOwner o (p'.onEngine ib.constantEngine) (R submit) kind =
      R (ibOwner o (p.onEngine ib.constantEngine) submit kind) :=
    (h.recalls.onEngine ib.constantEngine).ibOwner o kind
  have hlinks : Links.on View.withBuffers
      [(ibOwner o (p'.onEngine ib.constantEngine) (R submit) kind, p'.nodes.size)] =
      (Links.on View.withBuffers
        [(ibOwner o (p.onEngine ib.constantEngine) submit kind, p.nodes.size)]).renamed R := by
    rw [Links.renamed_on, howner, h.size_eq]
    rfl
  unfold OwnersFit
  rw [hlinks]
  exact Links.carries_renamed

theorem enterBuffer_agrees {ibIndex : Nat} {ib : IndirectBuffer} {kind : IbKind}
    (h : p.Renames R p') (hp : p.Sound) (hp' : p'.Sound) (hs : p.submit = some submit)
    (hfit : OwnersFit R o o' p p' submit ibIndex ib kind) :
    Agree (enterBuffer o ibIndex ib kind) p (enterBuffer o' ibIndex ib kind) p'
      fun _ q _ q' => q.Renames R q' := by
  refine .of_leads Nat.not_le.mpr (enterBuffer_leads hp hs o ibIndex ib kind)
    (enterBuffer_leads hp' (h.recalls.isOpen hs) o' ibIndex ib kind) ?_
  rintro _ q _ q' - ⟨-, hq, hctx⟩ ⟨-, hq', hctx'⟩
  have hentered := (h.recalls.onEngine ib.constantEngine).entered p.nodes.size kind
  rw [← h.size_eq] at hentered
  exact h.regroups hq.regroups_nil hq'.regroups_nil (hq.nodes ▸ hfit) (hentered.congr hctx hctx')

theorem leaveBuffer_agrees (h : p.Renames R p') (hp : p.Sound) (hp' : p'.Sound)
    (hs : p.submit = some submit) :
    Agree leaveBuffer p leaveBuffer p' fun _ q _ q' => q.Renames R q' := by
  have hhead : p'.ibs.head? = p.ibs.head?.map (IbRun.renamed R) := by
    rw [h.recalls.ibs, IbStack.renamed, List.head?_map]
  cases hr : p.ibs.head? with
  | none =>
    refine .get_bind ?_
    rw [hhead, hr]
    exact .of_error rfl rfl
  | some r =>
    refine .of_succeeds (leaveBuffer_succeeds hp hs hr)
      (leaveBuffer_succeeds hp' (h.recalls.isOpen hs) (by rw [hhead, hr]; rfl)) ?_
    rintro _ _ _ _ ⟨rfl, -⟩ ⟨rfl, -⟩
    obtain ⟨_, _, _, _, _, hleft⟩ := p.left_eq
    obtain ⟨_, _, _, _, _, hleft'⟩ := p'.left_eq
    exact h.congr h.recalls.popped.scopeLeft.beginCleared (congrArg Pass.nodes hleft :)
      (congrArg Pass.edges hleft :) (congrArg Pass.nodes hleft' :) (congrArg Pass.edges hleft' :)

theorem step_agrees {step : Step} (h : p.Renames R p') (hp : p.Sound) (hp' : p'.Sound)
    (hs : p.submit = some submit) (ho : o.Alike o')
    (hfit : ∀ ibIndex ib kind, step = .enter ibIndex ib kind →
      OwnersFit R o o' p p' submit ibIndex ib kind) (m : Reader) (index : Nat) :
    Agree (Pass.step o m index step) p (Pass.step o' m index step) p'
      fun _ q _ q' => q.Renames R q' := by
  cases step with
  | enter ibIndex ib kind => exact h.enterBuffer_agrees hp hp' hs (hfit ibIndex ib kind rfl)
  | leave => exact h.leaveBuffer_agrees hp hp' hs
  | packet _ va kind header => exact h.packet_agrees hp hp' hs ho m index va kind header

/-! ## Submits -/

theorem submitStart_agrees {s : Submit} (h : p.Renames R p') (hp : p.Sound) (hp' : p'.Sound)
    (hengine : p'.engines.lookup s.engine = (p.engines.lookup s.engine).map R) (index : Nat) :
    Agree (submitStart index s) p (submitStart index s) p' fun _ q _ q' => q.Renames R q' := by
  cases he : p.engines.lookup s.engine with
  | none =>
    refine .get_bind ?_
    rw [hengine, he]
    exact .of_error rfl rfl
  | some engine =>
    have he' : p'.engines.lookup s.engine = some (R engine) := by rw [hengine, he]; rfl
    refine .of_succeeds (submitStart_succeeds hp he index) (submitStart_succeeds hp' he' index) ?_
    rintro _ q _ q' ⟨-, hq, hctx⟩ ⟨-, hq', hctx'⟩
    have hbegun : Recalls R { p with submit := some p.nodes.size }
        { p' with submit := some (R p.nodes.size) } :=
      h.recalls.map (fun q => { q with submit := some p.nodes.size })
        (fun q => { q with submit := some (R p.nodes.size) }) (fun _ => rfl) fun _ => rfl
    rw [← h.size_eq] at hbegun
    refine h.adds hq hq' (hbegun.congr hctx hctx') rfl ?_ rfl
    rw [submitLinks, submitLinks, Links.renamed_append, Links.renamed_on, Links.renamed_on,
      h.size_eq]
    simp [EdgeLog.renamed, R.root]

theorem sortByIbIndex_map (h : p.Renames R p') (children : Array Nat) :
    sortByIbIndex p'.nodes (children.map R) = (sortByIbIndex p.nodes children).map R := by
  have hplace (n : Nat) : p'.nodes.ibIndex? (R n) = p.nodes.ibIndex? n := by
    rw [Nodes.ibIndex?, Nodes.aux?, h.nodes]
    rfl
  unfold sortByIbIndex
  dsimp only
  rw [Array.toList_map, List.map_toArray]
  refine congrArg List.toArray (List.map_mergeSort fun a _ b _ => ?_).symm
  simp only [hplace]

/-- The buffers of a submit are sorted alike. -/
theorem sorted (h : p.Renames R p') (hsubmit : p.nodes.kind? submit = some .submit)
    (hR : R.exempt .submit .submit = false) :
    (p.sorted submit).Renames R (p'.sorted (R submit)) := by
  have hlt := Nodes.kind?_lt hsubmit
  have hq := sorted_replaces h.sized hlt
  have hq' := sorted_replaces h.sized' (h.lt_iff.mpr hlt)
  have hchildren : p'.edges.submit.owned (R submit) = (p.edges.submit.owned submit).map R := by
    refine Array.ext' ?_
    rw [Array.toList_map]
    exact h.owned fun k hk => by rw [Option.some.inj (hk.symm.trans hsubmit)]; exact hR
  exact {
    recalls := h.recalls.congr hq.context hq'.context
    sized := hq.sized
    sized' := hq'.sized
    fresh := h.fresh
    nodes := h.nodes
    owned := fun {v n} hexempt => by
      rw [hq.owned, hq'.owned, hchildren, h.sortByIbIndex_map]
      simp only [R.inj.eq_iff]
      split
      · subst v
        split
        · exact Array.toList_map
        · exact h.owned hexempt
      · exact h.owned hexempt
    shared := fun v n => by rw [hq.shared, hq'.shared, h.shared]
    bare := fun {m} hm v => by
      have hne : m ≠ R submit := fun heq => hm submit heq.symm
      obtain ⟨howned, hshared⟩ := h.bare hm v
      rw [hq'.owned, hq'.shared, if_neg hne, hshared]
      refine ⟨?_, rfl⟩
      split
      · subst v
        exact howned
      · exact howned }

theorem addPostamble_agrees (h : p.Renames R p') (hp : p.Ready submit)
    (hp' : p'.Ready (R submit)) (hsubmit : p.nodes.kind? submit = some .submit)
    (hR : R.exempt .allEvent .submit = false) :
    Agree (addPostamble submit) p (addPostamble (R submit)) p'
      fun _ q _ q' => q.Renames R q' ∧ p.nodes.size ≤ q.nodes.size := by
  refine .of_succeeds (addPostamble_adds hp) (addPostamble_adds hp') ?_
  rintro _ q _ q' hq hq'
  have hempty : p'.packets.isEmpty = p.packets.isEmpty := by
    rw [h.recalls.packets, ← Array.isEmpty_toList, ← Array.isEmpty_toList, Array.toList_map,
      List.isEmpty_map]
  rw [hempty] at hq'
  split at hq
  · rw [if_pos ‹_›] at hq'
    subst hq hq'
    exact ⟨h, Nat.le_refl _⟩
  rw [if_neg ‹_›] at hq'
  obtain ⟨hq, hctx⟩ := hq
  obtain ⟨hq', hctx'⟩ := hq'
  have htext : p'.stateText (R submit) = p.stateText submit := by
    have howned : p'.owned .allEvent (R submit) = (p.owned .allEvent submit).map R :=
      h.owned fun k hk => by rw [Option.some.inj (hk.symm.trans hsubmit)]; exact hR
    have hsame : (p'.edges.allEvent.owned (R submit)).isEmpty =
        (p.edges.allEvent.owned submit).isEmpty := by
      rw [← Array.isEmpty_toList, ← Array.isEmpty_toList]
      exact (congrArg List.isEmpty howned).trans List.isEmpty_map
    rw [stateText, hsame, stateText]
  have hended : Recalls R { p with packets := #[] } { p' with packets := #[] } :=
    h.recalls.map (fun q => { q with packets := #[] }) (fun q => { q with packets := #[] })
      (fun q => by simp [renamed]) fun _ => rfl
  refine ⟨h.adds hq hq' (hended.congr hctx hctx') (by rw [htext]) ?_ h.run_links, hq.le_size⟩
  rw [Links.renamed_on, h.size_eq]
  rfl

theorem addPresents_agrees (h : p.Renames R p') (hroot : rootNode < p.nodes.size) (index : Nat) :
    Agree (addPresents index) p (addPresents index) p' fun _ q _ q' => q.Renames R q' := by
  unfold addPresents
  refine .get_bind ?_
  rw [h.recalls.presents]
  refine (Agree.forM (I := fun _ q q' => q.Renames R q' ∧ rootNode < q.nodes.size) ⟨h, hroot⟩
    ?_).imp fun _ _ _ _ hq => hq.1
  rintro - ⟨present, i⟩ - q q' - ⟨hq, hlt⟩
  refine .ite (fun _ => ?_) fun _ => .pure ⟨hq, hlt⟩
  refine .of_succeeds (addPresent_succeeds hq.sized hlt i present)
    (addPresent_succeeds hq.sized' (R.root ▸ hq.lt_iff.mpr hlt) i present) ?_
  rintro _ r _ r' ⟨hr, hctx⟩ ⟨hr', hctx'⟩
  refine ⟨hq.adds hr hr' (hq.recalls.congr hctx hctx') rfl ?_ rfl,
    Nat.lt_of_lt_of_le hlt hr.le_size⟩
  rw [Links.renamed_on, hq.size_eq]
  simp [EdgeLog.renamed, R.root]

theorem submitEnd_agrees (h : p.Renames R p') (hp : p.Sound) (hp' : p'.Sound)
    (hs : p.submit = some submit) (hR : ∀ v, R.exempt v .submit = false) (index : Nat) :
    Agree (submitEnd index) p (submitEnd index) p' fun _ q _ q' => q.Renames R q' := by
  have hs' := h.recalls.isOpen hs
  have hsubmit := hp.submit submit hs
  have hsorted := h.sorted hsubmit (hR .submit)
  have hunmarked : (p.sorted submit).unmarked.Renames R (p'.sorted (R submit)).unmarked :=
    hsorted.congr hsorted.recalls.unmarked rfl rfl rfl rfl
  have hroot : rootNode < p.nodes.size := Nodes.kind?_lt (hp.arranged.root.mpr rfl)
  unfold submitEnd
  refine (openSubmit_agrees h.recalls hs).bind ?_
  rintro submit p _ p' ⟨rfl, rfl, rfl, rfl⟩
  refine .modify_bind (.modify_bind ?_)
  refine (hunmarked.addPostamble_agrees ((hp.sorted hs).unmarked.ready hs)
    ((hp'.sorted hs').unmarked.ready hs') hsubmit (hR .allEvent)).bind ?_
  rintro _ q _ q' ⟨hq, hle⟩
  refine (hq.addPresents_agrees (Nat.lt_of_lt_of_le hroot hle) index).bind ?_
  rintro _ r _ r' hr
  exact .modify_bind (.modify (hr.congr hr.recalls.submitClosed.beginCleared rfl rfl rfl rfl))

end Renames

end Pass

end CaptureForest
