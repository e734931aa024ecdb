import CaptureForest.Proofs.Hierarchy.Moments

/-! # What a called buffer leaves behind

A buffer that is called and marks no call of its own leaves the scope and the markers below the open
call as they were. The open call itself does not last: it is closed where the called buffer ends,
although it was recorded in the caller (`Pass.Moment.returned`). -/

namespace CaptureForest

namespace Walk

/-- Behind the steps `t`, the steps `u` enter a called buffer and end when it ends. -/
structure Calls (t u : List Step) : Prop where
  enters : ∃ ibIndex ib body, u = .enter ibIndex ib .call :: body
  inside : ∀ n < u.length, 0 < n → numOpen t < numOpen (t ++ u.take n)
  returns : numOpen (t ++ u) = numOpen t

/-- The first step of a called buffer enters it. -/
theorem Calls.eq_enter {t u v : List Step} {x : Step} (h : Calls t u) (hv : v ++ [x] <+: u)
    (hnil : v = []) : ∃ ibIndex ib, x = .enter ibIndex ib .call := by
  obtain ⟨ibIndex, ib, body, rfl⟩ := h.enters
  subst hnil
  obtain ⟨rest, hrest⟩ := hv
  exact ⟨ibIndex, ib, (List.cons.inj hrest).1⟩

end Walk

namespace IbStack

/-- What is pushed on a part of the stack is pushed on the stack. -/
theorem push_append {s base : IbStack} {node : Nat} {kind : IbKind} (h : s ≠ [] ∨ kind ≠ .chain) :
    (s ++ base).push node kind = s.push node kind ++ base := by
  cases kind with
  | normal | call => rfl
  | chain =>
    cases s with
    | nil => simp at h
    | cons => rfl

theorem depth_le_append (s base : IbStack) : base.depth ≤ (s ++ base).depth := by
  induction s with
  | nil => exact Nat.le_refl _
  | cons r s ih =>
    rw [List.cons_append, depth_cons]
    omega

end IbStack

namespace Pass

variable {o : Options} {c : Capture} {before : List Submit} {s : Submit} {t u : List Step}
  {p q : Pass} {submit : Nat}

/-- The open call stands on top of the markers. -/
theorem Stacked.markers_eq {P : Nat → Prop} (h : p.Stacked P) :
    p.markers = p.openCall.toList ++ p.callClosed.markers := by
  cases hc : p.openCall with
  | none => simp [Pass.callClosed, hc]
  | some call =>
    obtain ⟨ms, hms⟩ := List.head?_eq_some_iff.mp (h.openCall call hc)
    simp [Pass.callClosed, hc, hms]

/-- A scope that has no level open, or none so deep, is not touched where a buffer ends. -/
theorem scopeLeft_eq_self
    (h : ∀ s, p.scope = some s → s.depth ≤ p.ibDepth ∧ (s.levelOpen → s.depth < p.ibDepth)) :
    p.scopeLeft = p := by
  unfold scopeLeft
  split
  · rfl
  · rename_i s hs
    obtain ⟨hle, hlt⟩ := h s hs
    rw [if_neg (Nat.not_lt.mpr hle)]
    split
    · have hclosed : s.levelOpen = false := Bool.eq_false_iff.mpr fun hopen => by
        have := hlt hopen
        omega
      obtain ⟨call, depth, levelOpen⟩ := s
      cases p
      simp_all [levelClosed, belowLevel]
    · rfl

/-- The walk is inside of a buffer that was called at `p`, and no call was marked since. -/
structure Inside (p : Pass) (v : List Step) (r : Pass) : Prop where
  ibs : ∃ inner, r.ibs = inner ++ p.ibs ∧ (v ≠ [] → inner = [] → r.openCall = none)
  levels : r.levels = p.levels

/-- Where a buffer inside of the called one ends, or the called one itself. -/
theorem Inside.leaves {r : Pass} {v : List Step} {x : Step} (h : Inside p v r) (hp : p.Scoped)
    (hinner : p.ibs.length < r.ibs.length) :
    Inside p (v ++ [x]) r.popped.scopeLeft.beginCleared := by
  obtain ⟨inner, hibs, -⟩ := h.ibs
  have htail : r.popped.ibs = inner.tail ++ p.ibs := by
    have hne : inner ≠ [] := by
      rintro rfl
      rw [hibs, List.nil_append] at hinner
      exact Nat.lt_irrefl _ hinner
    rw [← List.tail_append_of_ne_nil hne, ← hibs]
    exact modifyIbs_ibs
  have hleft : r.popped.scopeLeft = r.popped := by
    refine scopeLeft_eq_self fun s hs => ?_
    have hs' : r.scope = some s := popped_scope.symm.trans hs
    have hw := hp s ((congrArg Levels.scope h.levels).symm.trans hs')
    have hle : p.ibDepth ≤ r.popped.ibDepth := by
      rw [ibDepth, ibDepth, htail]
      exact IbStack.depth_le_append _ _
    exact ⟨Nat.le_trans hw.le hle, fun hopen => Nat.lt_of_lt_of_le (hw.lt hopen) hle⟩
  rw [hleft]
  exact ⟨⟨inner.tail, htail, fun _ _ => rfl⟩, levels_popped.trans h.levels⟩

/-- Inside of a called buffer no step changes the levels, if it marks no call. -/
theorem Inside.turns {r r' : Pass} {v : List Step} {x : Step} (h : Inside p v r) (hp : p.Scoped)
    (hcalls : Walk.Calls t u) (hv : v ++ [x] <+: u) (hr : Moment o c before s (t ++ v) r)
    (hlength : p.ibs.length = Walk.numOpen t) (hx : x.call? c.memory before.length = none)
    (hturns : r.Turns o c.memory before.length submit x r') : Inside p (v ++ [x]) r' := by
  -- Behind its first step, the called buffer is open.
  have hinner (hne : v ≠ []) : p.ibs.length < r.ibs.length := by
    have hlt : v.length < u.length := by
      have hle := hv.length_le
      rwa [List.length_append] at hle
    have htake : v = u.take v.length :=
      List.prefix_iff_eq_take.mp ((List.prefix_append _ _).trans hv)
    rw [hlength, hr.length_ibs, htake]
    exact hcalls.inside v.length hlt (List.length_pos_of_ne_nil hne)
  have hsame (hne : v ≠ []) (hibs : r'.ibs = r.ibs) (hlevels : r'.levels = r.levels) :
      Inside p (v ++ [x]) r' := by
    obtain ⟨inner, heq, -⟩ := h.ibs
    refine ⟨⟨inner, hibs.trans heq, fun _ hnil => ?_⟩, hlevels.trans h.levels⟩
    have hlt := hinner hne
    rw [heq, hnil] at hlt
    exact absurd hlt (Nat.lt_irrefl _)
  have hfirst (hx : ∀ ibIndex ib, x ≠ .enter ibIndex ib .call) : v ≠ [] := fun hnil => by
    obtain ⟨ibIndex, ib, heq⟩ := hcalls.eq_enter hv hnil
    exact hx ibIndex ib heq
  cases hturns with
  | @enter ibIndex ib kind _ hq =>
    obtain ⟨inner, hibs, -⟩ := h.ibs
    obtain ⟨_, _, hctx⟩ := hq.context_eq
    have hkind : inner ≠ [] ∨ kind ≠ .chain := by
      by_cases hnil : v = []
      · obtain ⟨_, _, heq⟩ := hcalls.eq_enter hv hnil
        cases heq
        exact .inr nofun
      · refine .inl fun hnil' => ?_
        have hlt := hinner hnil
        rw [hibs, hnil'] at hlt
        exact Nat.lt_irrefl _ hlt
    have hpush : r'.ibs = inner.push r.nodes.size kind ++ p.ibs := by
      rw [hq.ibs_eq, hibs, IbStack.push_append hkind]
    refine ⟨⟨_, hpush, fun _ hnil => ?_⟩, (congrArg Pass.levels hctx :).trans h.levels⟩
    cases kind with
    | normal | call => cases hnil
    | chain => cases inner <;> cases hnil
  | leave => exact h.leaves hp (hinner (hfirst nofun))
  | skip => exact hsame (hfirst nofun) rfl rfl
  | packet _ hq =>
    obtain ⟨hibs, hlevels⟩ := hq.of_call?_eq_none hx
    exact hsame (hfirst nofun) hibs hlevels

/-- When the walk returns from a called buffer that marked no call, the call that was open before it
is closed. The scope and the markers below the call are as they were, and all is as it was just if
no call was open. -/
theorem Moment.returned (hp : Moment o c before s t p) (hq : Moment o c before s (t ++ u) q)
    (hu : Walk.Calls t u) (hcalls : ∀ x ∈ u, x.call? c.memory before.length = none) :
    q.openCall = none ∧ p.markers = p.openCall.toList ++ q.markers ∧
      p.internalMarkers = p.openCall.toList ++ q.internalMarkers ∧ q.scope = p.scope ∧
      (q.openCall = p.openCall ∧ q.markers = p.markers ∧ q.internalMarkers = p.internalMarkers ↔
        p.openCall = none) := by
  have hinside : Inside p u q := by
    refine hp.induct hq ⟨⟨[], rfl, fun h => absurd rfl h⟩, rfl⟩
      fun {v x r r' submit} hv hr _ hturns h => ?_
    have hx : x ∈ u := hv.subset (List.mem_append_right _ List.mem_cons_self)
    exact h.turns hp.reached.scoped hu hv hr hp.length_ibs (hcalls x hx) hturns
  obtain ⟨inner, hibs, hopen⟩ := hinside.ibs
  have hnil : inner = [] := by
    have hlength := hq.length_ibs
    rw [hu.returns, ← hp.length_ibs, hibs, List.length_append] at hlength
    exact List.eq_nil_of_length_eq_zero (by omega)
  have hne : u ≠ [] := by
    obtain ⟨_, _, _, rfl⟩ := hu.enters
    exact List.cons_ne_nil _ _
  have hclosed : q.openCall = none := hopen hne hnil
  have hmarkers : q.markers = p.callClosed.markers := by
    have hlevels := congrArg Levels.markers hinside.levels
    rwa [levels, callClosed_eq hclosed] at hlevels
  have hp' : p.markers = p.openCall.toList ++ q.markers := by
    rw [hmarkers]
    exact hp.sound.stacked.markers_eq
  have hinternal : p.internalMarkers = p.openCall.toList ++ q.internalMarkers := by
    rw [hp.sound.stacked.aligned, hq.sound.stacked.aligned]
    exact hp'
  refine ⟨hclosed, hp', hinternal, congrArg Levels.scope hinside.levels, fun h => ?_, fun h => ?_⟩
  · exact h.1.symm.trans hclosed
  · rw [hp', hinternal, h]
    exact ⟨hclosed, rfl, rfl⟩

/-- A buffer is called behind the marker of a draw call. -/
theorem Moment.returned_draw :
    let header := Header.ofOpcode Opcode.nop 1
    let calls := Header.ofOpcode Opcode.callPfe 3
    let s : Submit :=
      { engine := .universal, queue := .universal, ibs := [{ va := 0, size := 6 }] }
    let c : Capture := {
      submits := [s]
      memory := .flat (Words.toBytes #[header, CallMarker.word .draw, calls, 24, 0, 1,
        Header.ofOpcode Opcode.nop 0]) }
    let t : List Step := [.enter 0 { va := 0, size := 6 } .normal, .packet 0 0 .type7 header,
      .packet 0 8 .type7 calls]
    let u : List Step := [.enter 0 { va := 24, size := 1 } .call,
      .packet 0 24 .type7 (Header.ofOpcode Opcode.nop 0), .leave 0 { va := 24, size := 1 }]
    ∃ p q, Moment {} c [] s t p ∧ Moment {} c [] s (t ++ u) q ∧ Walk.Calls t u ∧
      (∀ x ∈ u, x.call? c.memory 0 = none) ∧ p.openCall = some 9 ∧ q.openCall = none ∧
      p.markers = [9] ++ q.markers := by
  intro header calls s c t u
  have hsteps : Walk.steps c.memory 0 s.ibs = t ++ u ++ [.leave 0 { va := 0, size := 6 }] := by
    decide +kernel
  have hbefore : Succeeds (upTo {} c [] s t) {} fun _ p => p.openCall = some 9 := by
    decide +kernel
  have hbehind : Succeeds (upTo {} c [] s (t ++ u)) {} fun _ _ => True := by decide +kernel
  have hcalls : Walk.Calls t u := ⟨⟨_, _, _, rfl⟩, by decide, by decide⟩
  have hnone : ∀ x ∈ u, x.call? c.memory 0 = none := by decide +kernel
  obtain ⟨_, p, hp, hopen⟩ := hbefore.exists_ok
  obtain ⟨_, q, hq, -⟩ := hbehind.exists_ok
  have hpt : Moment {} c [] s t p :=
    ⟨⟨[], rfl⟩, rfl, ⟨_, (List.append_assoc ..).symm.trans hsteps.symm⟩, hp⟩
  have hqt : Moment {} c [] s (t ++ u) q := ⟨⟨[], rfl⟩, rfl, ⟨_, hsteps.symm⟩, hq⟩
  obtain ⟨hclosed, hmarkers, -⟩ := Moment.returned hpt hqt hcalls hnone
  rw [hopen] at hmarkers
  exact ⟨p, q, hpt, hqt, hcalls, hnone, hopen, hclosed, hmarkers⟩

/-- The marker of a draw call does not own the draw, if a buffer is called in between. -/
theorem Moment.returned_loses_draw :
    let s : Submit :=
      { engine := .universal, queue := .universal, ibs := [{ va := 0, size := 7 }] }
    let c : Capture := {
      submits := [s]
      memory := .flat (Words.toBytes #[Header.ofOpcode Opcode.nop 1, CallMarker.word .draw,
        Header.ofOpcode Opcode.callPfe 3, 28, 0, 1, Header.ofOpcode Opcode.drawAuto 0,
        Header.ofOpcode Opcode.nop 0]) }
    let t := (Walk.steps c.memory 0 s.ibs).take 3
    let u := ((Walk.steps c.memory 0 s.ibs).drop 3).take 3
    (¬∀ p q : Pass, Moment {} c [] s t p → Moment {} c [] s (t ++ u) q → Walk.Calls t u →
      (∀ x ∈ u, x.call? c.memory 0 = none) →
      q.openCall = p.openCall ∧ q.markers = p.markers ∧ q.internalMarkers = p.internalMarkers) ∧
    ∃ h, Hierarchy.ofCapture {} c = .ok h ∧ h.nodes.aux? 9 = some (.marker .diveMetadata 10) ∧
      h.nodes.kind? 17 = some .event ∧
      ∀ v ∈ [View.allEvent, .rgp], (h.forest v).children 6 = #[9, 17] ∧
        (h.forest v).children 9 = #[] := by
  intro s c t u
  constructor
  · intro hclaim
    have hsteps : Walk.steps c.memory 0 s.ibs = t ++ u ++ (Walk.steps c.memory 0 s.ibs).drop 6 := by
      decide +kernel
    have hbefore : Succeeds (upTo {} c [] s t) {} fun _ p => p.openCall = some 9 := by
      decide +kernel
    have hbehind : Succeeds (upTo {} c [] s (t ++ u)) {} fun _ q => q.openCall = none := by
      decide +kernel
    have hcalls : Walk.Calls t u := by
      have hu : u = .enter 0 { va := 28, size := 1 } .call :: u.tail := by decide +kernel
      exact ⟨⟨_, _, _, hu⟩, by decide +kernel, by decide +kernel⟩
    obtain ⟨_, p, hp, hopen⟩ := hbefore.exists_ok
    obtain ⟨_, q, hq, hclosed⟩ := hbehind.exists_ok
    obtain ⟨heq, -⟩ := hclaim p q
      ⟨⟨[], rfl⟩, rfl, ⟨_, (List.append_assoc ..).symm.trans hsteps.symm⟩, hp⟩
      ⟨⟨[], rfl⟩, rfl, ⟨_, hsteps.symm⟩, hq⟩ hcalls (by decide +kernel)
    rw [hopen, hclosed] at heq
    cases heq
  · decide +kernel

end Pass

end CaptureForest
