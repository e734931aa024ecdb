import CaptureForest.Proofs.Hierarchy.Calls
import CaptureForest.Proofs.Hierarchy.Signals
import CaptureForest.Proofs.Pass.Reach

/-! # Command buffers and the calls that execute them

The marker of a command buffer is listed below a call that executes command buffers if the scope of
that call lasts and the walk is deeper in buffers than it was there, be they called or chained
(`Hierarchy.ofCapture_begins`). -/

namespace CaptureForest

/-- The scope of a call recorded by the last of the steps `t` lasts through the steps behind it: no
other call executes command buffers, no call is recorded at the same depth that is neither a label
nor the begin or end of a command buffer, and the buffer of the call is not left. -/
inductive Walk.Lasts (m : Reader) (index : Nat) (t : List Step) : List Step → Prop
  | nil : Lasts m index t []
  | snoc {u : List Step} {x : Step} :
    Lasts m index t u → ¬x.Executes m index → depth t ≤ depth (t ++ u ++ [x]) →
    ((x.command? m index).any Command.isOther → depth t ≠ depth (t ++ u)) →
    Lasts m index t (u ++ [x])

theorem Walk.lasts_append {m : Reader} {index : Nat} {t u : List Step} {x : Step} :
    Lasts m index t (u ++ [x]) ↔ Lasts m index t u ∧ ¬x.Executes m index ∧
      depth t ≤ depth (t ++ u ++ [x]) ∧
      ((x.command? m index).any Command.isOther → depth t ≠ depth (t ++ u)) := by
  constructor
  · intro h
    generalize hv : u ++ [x] = v at h
    cases h with
    | nil => simp at hv
    | snoc h hx hle hother =>
      obtain ⟨rfl, heq⟩ := List.append_inj' hv rfl
      cases heq
      exact ⟨h, hx, hle, hother⟩
  · rintro ⟨h, hx, hle, hother⟩
    exact .snoc h hx hle hother

namespace Pass

variable {o : Options} {c : Capture} {before : List Submit} {s : Submit} {t u : List Step}
  {x : Step} {p q : Pass} {a d n : Nat}

/-! ## Scopes at a moment -/

theorem Moment.sizes (h : Moment o c before s t p) : p.ibs.map IbRun.size = Walk.runSizes t := by
  induction t using List.reverseRecOn generalizing p with
  | nil => rw [List.eq_nil_of_length_eq_zero h.length_ibs]; rfl
  | append_singleton t x ih =>
    obtain ⟨r, submit, hr, hsubmit, hturns⟩ := h.last
    rw [hturns.sizes hr.sound hsubmit, ih hr, Walk.runSizes_append]

/-- A pass and a walk count the open buffers the same way. -/
theorem Moment.ibDepth_eq (h : Moment o c before s t p) : p.ibDepth = Walk.depth t := by
  rw [ibDepth, IbStack.depth_eq, h.sizes, Walk.depth]

/-- The call `a` was recorded by the last of the steps `t` and executes command buffers, and its
scope lasts through the steps `u`. -/
structure Reigns (o : Options) (c : Capture) (before : List Submit) (s : Submit)
    (t u : List Step) (a : Nat) : Prop where
  recorded : ∃ t' y r, t = t' ++ [y] ∧ y.Executes c.memory before.length ∧
    Moment o c before s t r ∧ r.openCall = some a
  lasts : Walk.Lasts c.memory before.length t u

/-- The scope of a pass is that of the call whose scope lasts. -/
theorem Moment.reach_iff (h : Moment o c before s t p) : p.reach = some (a, d) ↔
    ∃ t₁ t₂, t = t₁ ++ t₂ ∧ Reigns o c before s t₁ t₂ a ∧ Walk.depth t₁ = d := by
  induction t using List.reverseRecOn generalizing p with
  | nil =>
    constructor
    · intro hreach
      obtain ⟨s', hs', -⟩ := Option.map_eq_some_iff.mp hreach
      have hw := h.reached.scoped s' hs'
      have hpos := Nat.lt_of_lt_of_le hw.pos hw.le
      rw [h.ibDepth_eq] at hpos
      exact absurd hpos (Nat.lt_irrefl 0)
    · rintro ⟨t₁, t₂, heq, ⟨⟨t', y, _, rfl, -⟩, -⟩, -⟩
      simp at heq
  | append_singleton t x ih =>
    obtain ⟨r, submit, hr, hsubmit, hturns⟩ := h.last
    by_cases hx : x.Executes c.memory before.length
    · obtain ⟨n, -, -, hopen, hlevels⟩ := hturns.begins hx
      have hreach : p.reach = some (n, p.ibDepth) :=
        (congrArg (fun l : Levels => l.scope.map fun s => (s.call, s.depth)) hlevels :)
      rw [hreach, h.ibDepth_eq]
      constructor
      · intro heq
        cases heq
        exact ⟨t ++ [x], [], (List.append_nil _).symm, ⟨⟨t, x, p, rfl, hx, h, hopen⟩, .nil⟩, rfl⟩
      · rintro ⟨t₁, t₂, heq, ⟨⟨t', y, r', rfl, hy, hr', hopen'⟩, hlasts⟩, rfl⟩
        rcases List.eq_nil_or_concat t₂ with rfl | ⟨t₂, z, rfl⟩
        · rw [List.append_nil] at heq
          rw [← heq] at hr'
          cases hr'.unique h
          rw [hopen] at hopen'
          cases hopen'
          rw [heq]
        · rw [List.concat_eq_append, ← List.append_assoc] at heq
          obtain ⟨-, hz⟩ := List.append_inj' heq rfl
          cases hz
          rw [List.concat_eq_append] at hlasts
          exact absurd hx (Walk.lasts_append.mp hlasts).2.1
    · rw [hturns.reach_iff hr.reached.scoped hx, ih hr, h.ibDepth_eq, hr.ibDepth_eq]
      constructor
      · rintro ⟨⟨t₁, t₂, rfl, ⟨hrec, hlasts⟩, rfl⟩, hle, hother⟩
        exact ⟨t₁, t₂ ++ [x], List.append_assoc .., ⟨hrec, .snoc hlasts hx hle hother⟩, rfl⟩
      · rintro ⟨t₁, t₂, heq, ⟨hrec, hlasts⟩, rfl⟩
        rcases List.eq_nil_or_concat t₂ with rfl | ⟨t₂, z, rfl⟩
        · obtain ⟨t', y, -, rfl, hy, -⟩ := hrec
          rw [List.append_nil] at heq
          obtain ⟨-, hy'⟩ := List.append_inj' heq rfl
          cases hy'
          exact absurd hy hx
        · rw [List.concat_eq_append] at heq hlasts
          rw [← List.append_assoc] at heq
          obtain ⟨rfl, hz⟩ := List.append_inj' heq rfl
          cases hz
          obtain ⟨hlasts, -, hle, hother⟩ := Walk.lasts_append.mp hlasts
          exact ⟨⟨t₁, t₂, rfl, ⟨hrec, hlasts⟩, rfl⟩, hle, hother⟩

/-- A command buffer is listed below the call of the scope, if the walk is deeper than there. -/
theorem bufferOwner_cases (p : Pass) (submit : Nat) :
    (∃ a d, p.reach = some (a, d) ∧ d < p.ibDepth ∧ p.bufferOwner submit = a) ∨
      (∀ a d, p.reach = some (a, d) → p.ibDepth ≤ d) ∧ p.bufferOwner submit = submit := by
  unfold bufferOwner inScope reach
  cases p.scope with
  | none => exact .inr ⟨nofun, rfl⟩
  | some s =>
    by_cases hlt : s.depth < p.ibDepth
    · exact .inl ⟨s.call, s.depth, rfl, hlt, by simp [hlt]⟩
    · refine .inr ⟨fun a d heq => ?_, by simp [hlt]⟩
      cases heq
      exact Nat.le_of_not_lt hlt

/-! ## Markers of command buffers -/

/-- The command buffer of the marker `n` begins by the step `x` behind the steps `t`. -/
structure Begun (o : Options) (c : Capture) (before : List Submit) (s : Submit) (t : List Step)
    (x : Step) (p : Pass) (n : Nat) : Prop where
  moment : Moment o c before s t p
  command : x.command? c.memory before.length = some .beginCommandBuffer
  opened : ∃ r, Moment o c before s (t ++ [x]) r ∧ r.openCall = some n

/-- The markers of command buffers have the owners that they were given. -/
structure Traced (o : Options) (c : Capture) (q : Pass) : Prop where
  typed : q.nodes.Typed
  begins : ∀ n, q.nodes.Begins n → ∃ before s t x p submit, Begun o c before s t x p n ∧
    p.submit = some submit ∧ n ∈ q.owned .allEvent (p.bufferOwner submit) ∧
    ∃ new : List Node, q.nodes = p.nodes ++ new

/-- What was traced stays so. -/
theorem Traced.course (h : Traced o c p) (hc : p.Course q)
    (hnew : ∀ n, q.nodes.Begins n → p.nodes.Begins n ∨ ∃ before s t x submit,
      Begun o c before s t x p n ∧ p.submit = some submit ∧
      n ∈ q.owned .allEvent (p.bufferOwner submit)) : Traced o c q := by
  obtain ⟨more, hmore⟩ := hc.nodes
  refine ⟨hc.induct h.typed fun _ hc htyped => hc.typed htyped, fun n hn => ?_⟩
  rcases hnew n hn with hn | ⟨before, s, t, x, submit, hbegun, hsubmit, hmem⟩
  · obtain ⟨before, s, t, x, r, submit, hbegun, hsubmit, hmem, new, hr⟩ := h.begins n hn
    exact ⟨before, s, t, x, r, submit, hbegun, hsubmit,
      hc.owned_marker (h.typed.kind?_marker hn) hmem, new ++ more, by
        rw [hmore, hr, Nodes.append_append_list]⟩
  · exact ⟨before, s, t, x, p, submit, hbegun, hsubmit, hmem, more, hmore⟩

/-- Where a submit begins or ends no command buffer does. -/
theorem Settles.begins (h : p.Settles q) (ht : p.nodes.Typed) (hn : q.nodes.Begins n) :
    p.nodes.Begins n := by
  have hk := h.kind ((h.course.induct ht fun _ hc h => hc.typed h).kind?_marker hn)
  obtain ⟨new, hnew⟩ := h.course.nodes
  rw [hnew] at hn
  refine hn.append.resolve_right ?_
  rintro ⟨i, -, rfl, -⟩
  exact absurd (Nodes.kind?_lt hk) (by omega)

theorem After.traced {t : List Signal} (h : After o c t p) : Traced o c p := by
  refine h.induct (fun hq => ⟨hq.typed, fun n hn => ?_⟩) (fun _ _ hsettles hq => ?_)
    fun hm hm' hsubmit hturns hq => ?_
  · obtain ⟨node, hnode, haux⟩ := Option.map_eq_some_iff.mp hn
    rcases hq.node_cases hnode with rfl | ⟨engine, rfl⟩ <;> cases haux
  · exact hq.course hsettles.course fun n hn => .inl (hsettles.begins hq.typed hn)
  · refine hq.course (hturns.course hm.sound hsubmit) fun n hn => ?_
    refine (hturns.begins_cases hn).imp_right fun ⟨hcommand, hopen, hmem⟩ => ?_
    exact ⟨_, _, _, _, _, ⟨hm, hcommand, _, hm', hopen⟩, hsubmit, hmem⟩

end Pass

namespace Hierarchy

/-- The marker of a command buffer that begins behind the steps `t` of a walk is listed below the call
whose scope lasts, if more buffers are open than at the call, and below the submit otherwise. Chained
buffers count as open ones. -/
theorem ofCapture_begins {o : Options} {c : Capture} {h : Hierarchy} {n : Nat}
    (hb : ofCapture o c = .ok h) (hn : h.nodes.Begins n) :
    ∃ before s t x p, Pass.Begun o c before s t x p n ∧
      ((∃ t₁ t₂ a, t = t₁ ++ t₂ ∧ Pass.Reigns o c before s t₁ t₂ a ∧
          Walk.depth t₁ < Walk.depth t ∧ h.nodes.Executes a ∧
          (h.forest .allEvent).parent? n = some a) ∨
        (∀ t₁ t₂ a, t = t₁ ++ t₂ → Pass.Reigns o c before s t₁ t₂ a →
          Walk.depth t ≤ Walk.depth t₁) ∧
        ∃ submit, p.submit = some submit ∧ h.nodes.kind? submit = some .submit ∧
          (h.forest .allEvent).parent? n = some submit) := by
  obtain ⟨q, hq, hnodes, hbakes⟩ := ofCapture_after hb
  rw [hnodes] at hn ⊢
  obtain ⟨before, s, t, x, p, submit, hbegun, hsubmit, hmem, new, hnew⟩ := hq.traced.begins n hn
  refine ⟨before, s, t, x, p, hbegun, ?_⟩
  have hparent : (h.forest .allEvent).parent? n = some (p.bufferOwner submit) :=
    (parent?_iff (hbakes .allEvent)).mpr ((owns_iff hbakes (by decide)).mpr hmem)
  rw [hparent]
  rcases p.bufferOwner_cases submit with ⟨a, d, hreach, hlt, howner⟩ | ⟨hle, howner⟩
  · obtain ⟨t₁, t₂, ht, hreigns, rfl⟩ := hbegun.moment.reach_iff.mp hreach
    obtain ⟨s', hs', heq⟩ := Option.map_eq_some_iff.mp hreach
    obtain rfl : s'.call = a := congrArg Prod.fst heq
    have hexec := (hbegun.moment.reached.scoped s' hs').call
    rw [hbegun.moment.ibDepth_eq] at hlt
    exact .inl ⟨t₁, t₂, _, ht, hreigns, hlt, hnew ▸ Nodes.aux?_append hexec, by rw [howner]⟩
  · refine .inr ⟨fun t₁ t₂ a ht hreigns => ?_, submit, hsubmit, ?_, by rw [howner]⟩
    · rw [← hbegun.moment.ibDepth_eq]
      exact hle a _ (hbegun.moment.reach_iff.mpr ⟨t₁, t₂, ht, hreigns, rfl⟩)
    · rw [hnew]
      exact Nodes.kind?_append (hbegun.moment.sound.submit submit hsubmit)

/-- A command buffer begins in a buffer that is called behind a call that executes command
buffers. -/
theorem ofCapture_begins_call :
    let c : Capture := {
      submits := [{ engine := .universal, queue := .universal, ibs := [{ va := 0, size := 6 }] }]
      memory := .flat (Words.toBytes #[Header.ofOpcode Opcode.nop 1,
        CallMarker.word .executeCommands, Header.ofOpcode Opcode.callPfe 3, 24, 0, 2,
        Header.ofOpcode Opcode.nop 1, CallMarker.word .beginCommandBuffer]) }
    ∃ h, ofCapture {} c = .ok h ∧ h.nodes.Begins 16 ∧ (h.forest .allEvent).parent? 16 = some 9 ∧
      ∃ before s t x p, Pass.Begun {} c before s t x p 16 ∧
        ∃ t₁ t₂, t = t₁ ++ t₂ ∧ Pass.Reigns {} c before s t₁ t₂ 9 ∧
          Walk.depth t₁ < Walk.depth t := by
  intro c
  have hrun : ∃ h, ofCapture {} c = .ok h ∧ h.nodes.Begins 16 ∧
      h.nodes.kind? 9 = some .marker ∧ (h.forest .allEvent).parent? 16 = some 9 := by
    decide +kernel
  obtain ⟨h, hb, hbegins, hkind, hparent⟩ := hrun
  obtain ⟨before, s, t, x, p, hbegun, hcase⟩ := ofCapture_begins hb hbegins
  refine ⟨h, hb, hbegins, hparent, before, s, t, x, p, hbegun, ?_⟩
  rcases hcase with ⟨t₁, t₂, a, ht, hreigns, hdepth, -, ha⟩ | ⟨-, submit, -, hsubmit, ha⟩
  · cases hparent.symm.trans ha
    exact ⟨t₁, t₂, ht, hreigns, hdepth⟩
  · cases hparent.symm.trans ha
    rw [hkind] at hsubmit
    cases hsubmit

/-- A command buffer that begins in a buffer which is chained behind a call that executes command
buffers is listed below the call, although no buffer is called. -/
theorem ofCapture_begins_chain :
    let s : Submit :=
      { engine := .universal, queue := .universal, ibs := [{ va := 0, size := 6 }] }
    let c : Capture := {
      submits := [s]
      memory := .flat (Words.toBytes #[Header.ofOpcode Opcode.nop 1,
        CallMarker.word .executeCommands, Header.ofOpcode Opcode.chain 3, 24, 0, 2,
        Header.ofOpcode Opcode.nop 1, CallMarker.word .beginCommandBuffer]) }
    (¬∀ h n a, ofCapture {} c = .ok h → h.nodes.Begins n → h.nodes.Executes a →
      (h.forest .allEvent).parent? n = some a →
      ∃ i ib, Step.enter i ib .call ∈ Walk.steps c.memory 0 s.ibs) ∧
    ∃ h, ofCapture {} c = .ok h ∧ h.nodes.Begins 16 ∧ h.nodes.Executes 9 ∧
      (h.forest .allEvent).parent? 16 = some 9 := by
  intro s c
  have hrun : ∃ h, ofCapture {} c = .ok h ∧ h.nodes.Begins 16 ∧ h.nodes.Executes 9 ∧
      (h.forest .allEvent).parent? 16 = some 9 := by
    decide +kernel
  refine ⟨fun hclaim => ?_, hrun⟩
  have hcalls : (Walk.steps c.memory 0 s.ibs).all fun x =>
      match x with
      | .enter _ _ kind => kind != .call
      | _ => true := by decide +kernel
  obtain ⟨h, hb, hbegins, hexec, hparent⟩ := hrun
  obtain ⟨i, ib, hmem⟩ := hclaim h 16 9 hb hbegins hexec hparent
  exact Bool.false_ne_true (List.all_eq_true.mp hcalls _ hmem)

end Hierarchy

end CaptureForest
