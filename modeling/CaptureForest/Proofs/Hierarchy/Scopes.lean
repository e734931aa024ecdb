import CaptureForest.Proofs.Hierarchy.Moments

/-! # What calls that execute command buffers leave behind

The level of a call that executes command buffers is closed when the walk is back at the depth of
the call, unless another such call is recorded while the level is open. Then it stays open up to the
end of the submit (`Pass.Moment.has_level_iff`). -/

namespace CaptureForest.Pass

variable {o : Options} {c : Capture} {before : List Submit} {s : Submit} {t u : List Step}
  {x : Step} {p q : Pass} {call : Nat}

/-- In the steps `u` behind `t` a call that executes command buffers is recorded while another has a
level. -/
def Overtaken (o : Options) (c : Capture) (before : List Submit) (s : Submit) (t : List Step)
    (call : Nat) (u : List Step) : Prop :=
  ∃ v y w r, u = v ++ y :: w ∧ y.Executes c.memory before.length ∧ Moment o c before s (t ++ v) r ∧
    call ∈ r.callClosed.markers

theorem not_overtaken_nil : ¬Overtaken o c before s t call [] := by
  rintro ⟨v, y, w, _, h, -⟩
  cases v <;> cases h

/-- One step more overtakes a call if it executes command buffers while the call has a level. -/
theorem overtaken_append (h : Moment o c before s (t ++ u) p) :
    Overtaken o c before s t call (u ++ [x]) ↔ Overtaken o c before s t call u ∨
      x.Executes c.memory before.length ∧ call ∈ p.callClosed.markers := by
  constructor
  · rintro ⟨v, y, w, r, hu, hy, hr, hmem⟩
    rcases List.eq_nil_or_concat w with rfl | ⟨w, last, rfl⟩
    · obtain ⟨rfl, hlast⟩ := List.append_inj' hu rfl
      cases hlast
      exact .inr ⟨hy, hr.unique h ▸ hmem⟩
    · rw [List.concat_eq_append, ← List.cons_append, ← List.append_assoc] at hu
      obtain ⟨rfl, -⟩ := List.append_inj' hu rfl
      exact .inl ⟨v, y, w, r, rfl, hy, hr, hmem⟩
  · rintro (⟨v, y, w, r, rfl, hy, hr, hmem⟩ | ⟨hx, hmem⟩)
    · exact ⟨v, y, w ++ [x], r, by simp, hy, hr, hmem⟩
    · exact ⟨u, x, [], p, rfl, hx, h, hmem⟩

/-- The level of a call since it was recorded: it can be closed, unless the call was overtaken. -/
structure Tracks (o : Options) (c : Capture) (before : List Submit) (s : Submit) (t : List Step)
    (call depth : Nat) (v : List Step) (r : Pass) : Prop where
  executes : r.nodes.Executes call
  level : ¬Overtaken o c before s t call v ∧ r.levels.Bounded call depth ∨
    Overtaken o c before s t call v ∧ r.levels.Stale call

theorem Tracks.turns {submit depth : Nat} {v : List Step} {r r' : Pass}
    (h : Tracks o c before s t call depth v r) (hr : Moment o c before s (t ++ v) r)
    (hs : r.submit = some submit) (hturns : r.Turns o c.memory before.length submit x r') :
    Tracks o c before s t call depth (v ++ [x]) r' := by
  obtain ⟨new, hnodes⟩ := hturns.nodes hr.sound hs
  refine ⟨hnodes ▸ Nodes.aux?_append h.executes, ?_⟩
  rw [overtaken_append hr]
  by_cases hx : x.Executes c.memory before.length
  · obtain ⟨n, hn, -, -, hlevels⟩ := hturns.begins hx
    have hne : n ≠ call := Nat.ne_of_gt (Nat.lt_of_lt_of_le h.executes.lt hn)
    rw [hlevels]
    by_cases hmem : call ∈ r.callClosed.markers
    · exact .inr ⟨.inr ⟨hx, hmem⟩, Levels.stale_of_mem hmem hne⟩
    · rcases h.level with ⟨hnot, -⟩ | ⟨-, hstale⟩
      · exact .inl ⟨not_or.mpr ⟨hnot, fun hand => hmem hand.2⟩,
          Levels.bounded_of_not_mem hmem fun heq => absurd heq hne⟩
      · exact absurd hstale.mem hmem
  · obtain ⟨new, depth, hshift⟩ := hturns.shift hr.reached.scoped hx
    have hcall : Nodes.Executes (r.nodes ++ new) call := Nodes.aux?_append h.executes
    have hscope (s : Scope) (hs : r.levels.scope = some s) :
        Nodes.Executes (r.nodes ++ new) s.call := Nodes.aux?_append (hr.reached.scoped s hs).call
    refine h.level.imp ?_ ?_
    · rintro ⟨hnot, hbounded⟩
      exact ⟨not_or.mpr ⟨hnot, fun hand => hx hand.1⟩, hshift.bounded hbounded hcall hscope⟩
    · rintro ⟨hover, hstale⟩
      exact ⟨.inl hover, hshift.stale hstale hcall hscope⟩

/-- When the walk is back at the depth of a call that executes command buffers, the call has no
level on the marker stacks any more, unless another call that executes command buffers was recorded
while it had one. In that case its level stays. -/
theorem Moment.has_level_iff (hp : Moment o c before s (t ++ [x]) p)
    (hx : x.Executes c.memory before.length) (hq : Moment o c before s (t ++ [x] ++ u) q)
    (hdepth : q.ibDepth ≤ p.ibDepth) :
    ∃ call, p.openCall = some call ∧ p.nodes.Executes call ∧
      (call ∈ q.callClosed.markers ↔ Overtaken o c before s (t ++ [x]) call u) ∧
      (call ∈ q.callClosed.internalMarkers ↔ Overtaken o c before s (t ++ [x]) call u) := by
  obtain ⟨p₀, submit, hp₀, -, hturns⟩ := hp.last
  obtain ⟨call, hn, hexec, hopen, hlevels⟩ := hturns.begins hx
  have hnot : call ∉ p₀.levels.markers := fun hmem =>
    Nat.not_lt.mpr hn (Nodes.kind?_lt (hp₀.sound.callClosed.stacked.markers call hmem))
  have hstart : Tracks o c before s (t ++ [x]) call p.ibDepth [] p := {
    executes := hexec
    level := .inl ⟨not_overtaken_nil, by
      rw [hlevels]
      exact Levels.bounded_of_not_mem hnot fun _ => rfl⟩ }
  have htracks : Tracks o c before s (t ++ [x]) call p.ibDepth u q :=
    hp.induct hq hstart fun _ hr hs hturns h => h.turns hr hs hturns
  have hmem : call ∈ q.callClosed.markers ↔ Overtaken o c before s (t ++ [x]) call u := by
    rcases htracks.level with ⟨hnot, hbounded⟩ | ⟨hover, hstale⟩
    · refine ⟨fun hmem => absurd hmem (hbounded.not_mem fun s hs hcall => ?_),
        fun hover => absurd hover hnot⟩
      refine Bool.eq_false_iff.mpr fun hlevel => ?_
      have hlt := (hq.reached.scoped s hs).lt hlevel
      rw [hbounded.scope s hs hcall] at hlt
      omega
    · exact ⟨fun _ => hover, fun _ => hstale.mem⟩
  refine ⟨call, hopen, hexec, hmem, ?_⟩
  rw [hq.sound.callClosed.stacked.aligned]
  exact hmem

/-- A call executes a command buffer without such calls, and the walk is back in the caller. -/
theorem Moment.has_level_iff_begin :
    let s : Submit :=
      { engine := .universal, queue := .universal, ibs := [{ va := 0, size := 6 }] }
    let c : Capture := {
      submits := [s]
      memory := .flat (Words.toBytes #[Header.ofOpcode Opcode.nop 1,
        CallMarker.word .executeCommands, Header.ofOpcode Opcode.callPfe 3, 24, 0, 2,
        Header.ofOpcode Opcode.nop 1, CallMarker.word .beginCommandBuffer]) }
    let t : List Step := [.enter 0 { va := 0, size := 6 } .normal]
    let x : Step := .packet 0 0 .type7 (Header.ofOpcode Opcode.nop 1)
    let u := ((Walk.steps c.memory 0 s.ibs).drop 2).take 4
    ∃ p q call, Moment {} c [] s (t ++ [x]) p ∧ x.Executes c.memory 0 ∧
      Moment {} c [] s (t ++ [x] ++ u) q ∧ q.ibDepth ≤ p.ibDepth ∧ p.openCall = some call ∧
      (call ∈ q.callClosed.markers ↔ Overtaken {} c [] s (t ++ [x]) call u) := by
  intro s c t x u
  have hsteps : Walk.steps c.memory 0 s.ibs =
      t ++ [x] ++ u ++ (Walk.steps c.memory 0 s.ibs).drop 6 := by decide +kernel
  have hbefore : Succeeds (upTo {} c [] s (t ++ [x])) {} fun _ p => p.ibDepth = 1 := by
    decide +kernel
  have hbehind : Succeeds (upTo {} c [] s (t ++ [x] ++ u)) {} fun _ q => q.ibDepth = 1 := by
    decide +kernel
  have hx : x.Executes c.memory 0 := by decide +kernel
  obtain ⟨_, p, hp, hdepth⟩ := hbefore.exists_ok
  obtain ⟨_, q, hq, hdepth'⟩ := hbehind.exists_ok
  have hpt : Moment {} c [] s (t ++ [x]) p :=
    ⟨⟨[], rfl⟩, rfl, ⟨_, (List.append_assoc ..).symm.trans hsteps.symm⟩, hp⟩
  have hqt : Moment {} c [] s (t ++ [x] ++ u) q := ⟨⟨[], rfl⟩, rfl, ⟨_, hsteps.symm⟩, hq⟩
  have hle : q.ibDepth ≤ p.ibDepth := Nat.le_of_eq (hdepth'.trans hdepth.symm)
  obtain ⟨call, hopen, -, hmem, -⟩ := Moment.has_level_iff hpt hx hqt hle
  exact ⟨p, q, call, hpt, hx, hqt, hle, hopen, hmem⟩

/-- A call that executes command buffers owns a draw of its caller, if such a call was recorded in
the command buffer that it executed. -/
theorem Moment.has_level_draw :
    let s : Submit :=
      { engine := .universal, queue := .universal, ibs := [{ va := 0, size := 7 }] }
    let c : Capture := {
      submits := [s]
      memory := .flat (Words.toBytes #[Header.ofOpcode Opcode.nop 1,
        CallMarker.word .executeCommands, Header.ofOpcode Opcode.callPfe 3, 28, 0, 4,
        Header.ofOpcode Opcode.drawAuto 0, Header.ofOpcode Opcode.nop 1,
        CallMarker.word .beginCommandBuffer, Header.ofOpcode Opcode.nop 1,
        CallMarker.word .executeCommands]) }
    let t : List Step := [.enter 0 { va := 0, size := 7 } .normal]
    let x : Step := .packet 0 0 .type7 (Header.ofOpcode Opcode.nop 1)
    let u := ((Walk.steps c.memory 0 s.ibs).drop 2).take 5
    (¬∀ p q call, Moment {} c [] s (t ++ [x]) p → x.Executes c.memory 0 →
      Moment {} c [] s (t ++ [x] ++ u) q → q.ibDepth ≤ p.ibDepth → p.openCall = some call →
      call ∉ q.callClosed.markers ∧ call ∉ q.callClosed.internalMarkers) ∧
    ∃ h, Hierarchy.ofCapture {} c = .ok h ∧ h.nodes.Executes 9 ∧ h.nodes.kind? 20 = some .event ∧
      ∀ v ∈ [View.allEvent, .rgp], (h.forest v).children 9 = #[16, 18, 20] := by
  intro s c t x u
  constructor
  · intro hclaim
    have hsteps : Walk.steps c.memory 0 s.ibs =
        t ++ [x] ++ u ++ (Walk.steps c.memory 0 s.ibs).drop 7 := by decide +kernel
    have hbefore : Succeeds (upTo {} c [] s (t ++ [x])) {} fun _ p =>
        p.ibDepth = 1 ∧ p.openCall = some 9 := by decide +kernel
    have hbehind : Succeeds (upTo {} c [] s (t ++ [x] ++ u)) {} fun _ q =>
        q.ibDepth = 1 ∧ 9 ∈ q.callClosed.markers := by decide +kernel
    obtain ⟨_, p, hp, hdepth, hopen⟩ := hbefore.exists_ok
    obtain ⟨_, q, hq, hdepth', hmem⟩ := hbehind.exists_ok
    obtain ⟨hnot, -⟩ := hclaim p q 9
      ⟨⟨[], rfl⟩, rfl, ⟨_, (List.append_assoc ..).symm.trans hsteps.symm⟩, hp⟩ (by decide +kernel)
      ⟨⟨[], rfl⟩, rfl, ⟨_, hsteps.symm⟩, hq⟩ (Nat.le_of_eq (hdepth'.trans hdepth.symm)) hopen
    exact hnot hmem
  · decide +kernel

end CaptureForest.Pass
