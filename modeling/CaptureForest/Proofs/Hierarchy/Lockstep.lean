import CaptureForest.Proofs.Hierarchy.Progress
import CaptureForest.Proofs.Pass.LockstepSubmit
import CaptureForest.Proofs.Pass.Rests

/-! # Builds in lockstep

Two builds of one capture go through the same steps, as the walk does not depend on what is built.
If they start with passes that are equal but for their numbers, they fail for the same cause or
end with such passes (`Pass.BothBetween.submits_agree`). A `Pass.Pact` says how the options of the
two may differ, and what the two have in common beside their numbers. -/

namespace CaptureForest.Pass

variable {R : Renaming} {o o' : Options} {I : Pass → Pass → Prop} {c : Capture}
  {done : List (Submit × Nat)} {s : Submit} {index submit : Nat} {t : List Step}
  {pos pos' : Walk.Position} {p p' q q' : Pass}

/-- The relation `I` stays between two builds in lockstep, and while it stays the owners of each
buffer fit. -/
structure Pact (R : Renaming) (o o' : Options) (I : Pass → Pass → Prop) : Prop where
  alike : o.Alike o'
  submits : ∀ v, R.exempt v .submit = false
  fit : ∀ {p p' : Pass} {submit ibIndex : Nat} {ib : IndirectBuffer} {kind : IbKind},
    p.Renames R p' → p.Sound → p.submit = some submit →
    OwnersFit R o o' p p' submit ibIndex ib kind
  enters : ∀ {p p' q q' : Pass} {submit ibIndex : Nat} {ib : IndirectBuffer} {kind : IbKind},
    I p p' → p.Renames R p' → p.Sound → p'.Sound → Enters o submit ibIndex ib kind p q →
    Enters o' (R submit) ibIndex ib kind p' q' → I q q'
  rests : ∀ {p p' q q' : Pass}, I p p' → p.Renames R p' → p.Rests q → p'.Rests q' → I q q'

/-- What two builds in lockstep have in common. -/
structure InStep (R : Renaming) (I : Pass → Pass → Prop) (p p' : Pass) : Prop where
  renames : p.Renames R p'
  common : I p p'
  engines : ∀ e n, p.engines.lookup e = some n → p'.engines.lookup e = some (R n)

theorem InStep.rests (pact : Pact R o o' I) (h : InStep R I p p') (hq : p.Rests q)
    (hq' : p'.Rests q') (hrenames : q.Renames R q') : InStep R I q q' where
  renames := hrenames
  common := pact.rests h.common h.renames hq hq'
  engines := by
    rw [hq.engines, hq'.engines]
    exact h.engines

/-- Two builds between the same submits. -/
structure BothBetween (R : Renaming) (I : Pass → Pass → Prop) (c : Capture)
    (done : List (Submit × Nat)) (p p' : Pass) : Prop where
  inStep : InStep R I p p'
  left : p.Between c done
  right : p'.Between c done

/-- Two builds at the same step of the walk of a submit. -/
structure BothDuring (R : Renaming) (I : Pass → Pass → Prop) (c : Capture)
    (done : List (Submit × Nat)) (s : Submit) (index : Nat) (t : List Step) (pos : Walk.Position)
    (submit : Nat) (p p' : Pass) : Prop where
  inStep : InStep R I p p'
  left : p.During c done s index t pos submit
  right : p'.During c done s index t pos (R submit)

/-- Both builds take a step. -/
theorem InStep.turns {m : Reader} {step : Step} (pact : Pact R o o' I) (h : InStep R I p p')
    (hp : p.Sound) (hp' : p'.Sound) (hs : p.submit = some submit)
    (hq : Turns o m index submit p step q) (hq' : Turns o' m index (R submit) p' step q')
    (hrenames : q.Renames R q') : InStep R I q q' := by
  have hs' := h.renames.recalls.isOpen hs
  have hrests (hstep : ∀ ibIndex ib kind, step ≠ .enter ibIndex ib kind) : InStep R I q q' :=
    h.rests pact (hq.rests hp hs hstep) (hq'.rests hp' hs' hstep) hrenames
  cases step with
  | enter =>
    cases hq with
    | enter hq =>
      cases hq' with
      | enter hq' =>
        exact {
          renames := hrenames
          common := pact.enters h.common h.renames hp hp' hq hq'
          engines := by
            rw [hq.engines_eq, hq'.engines_eq]
            exact h.engines }
  | leave | packet => exact hrests nofun

namespace BothDuring

theorem step_agrees {step : Step} {rest : List Step} (pact : Pact R o o' I)
    (h : BothDuring R I c done s index t pos submit p p') (hs : c.submits[index]? = some s)
    (hwalked : s.isWalked) (ht : Walk.steps c.memory index s.ibs = t ++ step :: rest)
    (move : Walk.Move c.memory index s.ibs pos step pos') :
    Agree (Pass.step o c.memory index step) p (Pass.step o' c.memory index step) p'
      fun _ q _ q' => BothDuring R I c done s index (t ++ [step]) pos' submit q q' := by
  have hp := h.left.follows
  have hp' := h.right.follows
  refine ((h.inStep.renames.step_agrees hp.sound hp'.sound hp.isOpen pact.alike (fun _ _ _ _ =>
    pact.fit h.inStep.renames hp.sound hp.isOpen) c.memory index).and_leads
    (h.left.step_leads o hs hwalked ht move) (h.right.step_leads o' hs hwalked ht move)).imp ?_
  rintro _ q _ q' ⟨hq, ⟨hleft, hturns⟩, hright, hturns'⟩
  exact ⟨h.inStep.turns pact hp.sound hp'.sound hp.isOpen hturns hturns' hq, hleft, hright⟩

/-- Both walks go from the begin of a submit to their end. -/
theorem walk_agrees (pact : Pact R o o' I) (h : BothDuring R I c done s index [] {} submit p p')
    (hs : c.submits[index]? = some s) (hwalked : s.isWalked) :
    Agree (walk o c.memory index s.ibs) p (walk o' c.memory index s.ibs) p' fun _ q _ q' =>
      ∃ pos, BothDuring R I c done s index (c.stepsOf s index) pos submit q q' := by
  obtain ⟨final, hfinal, -⟩ := Walk.path_steps c.memory index s.ibs
  unfold walk
  rw [Walk.run_eq_replay, Walk.run_eq_replay, Capture.stepsOf, if_pos hwalked]
  unfold Walk.replay
  refine Agree.bind (Agree.forM (I := fun before q q' => ∃ pos after,
    Walk.steps c.memory index s.ibs = before ++ after ∧
    BothDuring R I c done s index before pos submit q q' ∧
    Walk.Path c.memory index s.ibs pos after final) ⟨{}, _, rfl, h, hfinal⟩ ?_) ?_
  · rintro before step after q q' hsplit ⟨pos, after', hsplit', hq, hrest⟩
    rw [hsplit] at hsplit'
    cases List.append_cancel_left hsplit'
    obtain ⟨pos', move, hrest⟩ := hrest.head
    refine (hq.step_agrees pact hs hwalked hsplit move).imp fun _ r _ r' hr => ?_
    exact ⟨pos', after, by simp [hsplit], hr, hrest⟩
  · rintro _ q _ q' ⟨pos, after, hsplit, hq, hrest⟩
    exact .ofExcept fun _ _ => ⟨pos, hq⟩

theorem ends (pact : Pact R o o' I)
    (h : BothDuring R I c done s index (c.stepsOf s index) pos submit p p') :
    Agree (submitEnd index) p (submitEnd index) p'
      fun _ q _ q' => BothBetween R I c (done ++ [(s, index)]) q q' := by
  have hp := h.left.follows
  have hp' := h.right.follows
  refine ((h.inStep.renames.submitEnd_agrees hp.sound hp'.sound hp.isOpen pact.submits
    index).and_leads (h.left.ends.and (submitEnd_rests hp.sound hp.isOpen index))
    (h.right.ends.and (submitEnd_rests hp'.sound hp'.isOpen index))).imp ?_
  rintro _ q _ q' ⟨hq, ⟨hleft, hrests⟩, hright, hrests'⟩
  exact ⟨h.inStep.rests pact hrests hrests' hq, hleft, hright⟩

end BothDuring

namespace BothBetween

theorem begins (pact : Pact R o o' I) (h : BothBetween R I c done p p')
    (hs : c.submits[index]? = some s) :
    Agree (submitStart index s) p (submitStart index s) p' fun _ q _ q' =>
      ∃ submit, BothDuring R I c done s index [] {} submit q q' := by
  obtain ⟨engine, he⟩ := h.left.engines s (List.mem_of_getElem? hs)
  have he' := h.inStep.engines s.engine engine he
  refine ((h.inStep.renames.submitStart_agrees h.left.sound h.right.sound (by rw [he, he']; rfl)
    index).and_leads ((h.left.begins hs).and (submitStart_rests h.left.sound he index))
    ((h.right.begins hs).and (submitStart_rests h.right.sound he' index))).imp ?_
  rintro _ q _ q' ⟨hq, ⟨⟨submit, hleft⟩, hrests⟩, ⟨submit', hright⟩, hrests'⟩
  obtain rfl : submit' = R submit := Option.some.inj
    (hright.follows.isOpen.symm.trans (hq.recalls.isOpen hleft.follows.isOpen))
  exact ⟨submit, h.inStep.rests pact hrests hrests' hq, hleft, hright⟩

theorem runSubmit_agrees (pact : Pact R o o' I) (h : BothBetween R I c done p p')
    (hs : c.submits[index]? = some s) :
    Agree (runSubmit o c.memory index s) p (runSubmit o' c.memory index s) p'
      fun _ q _ q' => BothBetween R I c (done ++ [(s, index)]) q q' := by
  unfold runSubmit
  refine (h.begins pact hs).bind ?_
  rintro _ q _ q' ⟨submit, hq⟩
  by_cases hwalked : s.isWalked
  · rw [if_pos hwalked, if_pos hwalked]
    refine (hq.walk_agrees pact hs hwalked).bind ?_
    rintro _ r _ r' ⟨pos, hr⟩
    exact hr.ends pact
  · rw [if_neg hwalked, if_neg hwalked]
    have hend : BothDuring R I c done s index (c.stepsOf s index) {} submit q q' := by
      rw [Capture.stepsOf, if_neg hwalked]
      exact hq
    exact hend.ends pact

/-- Both builds run all submits. -/
theorem submits_agree (pact : Pact R o o' I) (h : BothBetween R I c [] p p') :
    Agree (c.submits.zipIdx.forM fun (s, index) => runSubmit o c.memory index s) p
      (c.submits.zipIdx.forM fun (s, index) => runSubmit o' c.memory index s) p'
      fun _ q _ q' => BothBetween R I c c.submits.zipIdx q q' := by
  refine .forM (I := fun done q q' => BothBetween R I c done q q') h ?_
  rintro done ⟨s, index⟩ rest q q' hsplit hq
  have hmem : (s, index) ∈ c.submits.zipIdx := by rw [hsplit]; simp
  exact hq.runSubmit_agrees pact (List.mem_zipIdx_iff_getElem?.mp hmem)

/-- Both builds come to their end. -/
theorem finish_agrees (h : BothBetween R I c c.submits.zipIdx p p') :
    Agree finish p finish p' fun hier _ hier' _ => ∃ q q' : Pass,
      BothBetween R I c c.submits.zipIdx q q' ∧ q.Becomes hier ∧ q'.Becomes hier' :=
  .of_succeeds (finish_becomes h.left.sound) (finish_becomes h.right.sound)
    fun _ _ _ _ hq hq' => ⟨p, p', h, hq, hq'⟩

end BothBetween

/-- What two builds come to that start with empty passes. -/
theorem results_agree {x y : PassM Hierarchy} {Q : Hierarchy → Hierarchy → Prop}
    {result result' : Except Error Hierarchy} (h : Agree x p y p' fun a _ b _ => Q a b)
    (hresult : result = match x.run p with
      | .ok h _ => .ok h
      | .error e _ => .error e)
    (hresult' : result' = match y.run p' with
      | .ok h _ => .ok h
      | .error e _ => .error e) :
    (∃ e, result = .error e ∧ result' = .error e) ∨
      ∃ a b, result = .ok a ∧ result' = .ok b ∧ Q a b := by
  subst hresult hresult'
  obtain ⟨a, _, b, _, hx, hy, h⟩ | ⟨e, _, _, hx, hy⟩ := h.cases
  · exact .inr ⟨a, b, by rw [EStateM.run, hx], by rw [EStateM.run, hy], h⟩
  · exact .inl ⟨e, by rw [EStateM.run, hx], by rw [EStateM.run, hy]⟩

end CaptureForest.Pass
