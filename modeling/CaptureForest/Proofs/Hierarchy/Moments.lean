import CaptureForest.Proofs.Hierarchy.Buffers
import CaptureForest.Proofs.Pass.Levels
import Mathlib.Data.List.Induction

/-! # Moments of a build

A `Pass.Moment` is the pass at some step of the walk of a submit. A moment comes from the one before
it by one step, so what each step preserves is true of all later moments of the walk
(`Moment.induct`). -/

namespace CaptureForest.Pass

variable {o : Options} {c : Capture} {before : List Submit} {s : Submit} {t u : List Step}
  {x : Step} {p q : Pass}

/-- The build of the capture `c` has come to `p` by the steps `t` of the walk of the submit `s`,
which comes behind the submits `before`. -/
structure Moment (o : Options) (c : Capture) (before : List Submit) (s : Submit) (t : List Step)
    (p : Pass) : Prop where
  listed : ∃ after, c.submits = before ++ s :: after
  walked : s.isWalked
  steps : t <+: Walk.steps c.memory before.length s.ibs
  run : (upTo o c before s t).run {} = .ok () p

theorem Started.scoped {engines : List Engine} (h : p.Started engines) : p.Scoped :=
  .none (h.remembers Pass.scope (fun _ => rfl) fun _ _ _ _ => rfl)

theorem Reached.scoped (h : p.Reached) : p.Scoped :=
  h.induct Started.scoped fun _ hc => hc.scoped

namespace Moment

theorem during (h : Moment o c before s t p) :
    ∃ pos submit, p.During c before.zipIdx s before.length t pos submit := by
  obtain ⟨after, hlisted⟩ := h.listed
  obtain ⟨rest, hrest⟩ := h.steps
  obtain ⟨pos, submit, -, hp, -⟩ := (upTo_leads o hlisted h.walked hrest.symm).of_ok h.run
  exact ⟨pos, submit, hp⟩

theorem sound (h : Moment o c before s t p) : p.Sound := by
  obtain ⟨_, _, hp⟩ := h.during
  exact hp.follows.sound

theorem reached (h : Moment o c before s t p) : p.Reached := by
  obtain ⟨_, _, hp⟩ := h.during
  exact hp.reached

/-- As many runs are on the stack as the walk has open. -/
theorem length_ibs (h : Moment o c before s t p) : p.ibs.length = Walk.numOpen t := by
  obtain ⟨_, _, hp⟩ := h.during
  have hlength := hp.follows.runs.length_eq
  rw [List.length_map, List.length_map] at hlength
  rw [hlength, hp.path.numOpen_eq]

/-- There is one pass at each moment. -/
theorem unique (h : Moment o c before s t p) (h' : Moment o c before s t q) : p = q := by
  have hrun := h.run.symm.trans h'.run
  cases hrun
  rfl

/-- A moment comes from the one before it by a step. -/
theorem last (h : Moment o c before s (t ++ [x]) q) : ∃ p submit, Moment o c before s t p ∧
    p.submit = some submit ∧ p.Turns o c.memory before.length submit x q := by
  obtain ⟨after, hlisted⟩ := h.listed
  obtain ⟨rest, hrest⟩ := h.steps
  have hsteps : Walk.steps c.memory before.length s.ibs = t ++ x :: rest := by
    rw [← hrest, List.append_assoc, List.singleton_append]
  obtain ⟨p, pos, submit, hp, hduring, hturns⟩ := upTo_last hlisted h.walked hsteps h.run
  exact ⟨p, submit, ⟨h.listed, h.walked, ⟨x :: rest, hsteps.symm⟩, hp⟩, hduring.follows.isOpen,
    hturns⟩

/-- What is true at a moment and preserved by each step from then on is true at a later moment. -/
theorem induct {I : List Step → Pass → Prop} (hp : Moment o c before s t p)
    (hq : Moment o c before s (t ++ u) q) (start : I [] p)
    (step : ∀ {v : List Step} {x : Step} {r r' : Pass} {submit : Nat}, v ++ [x] <+: u →
      Moment o c before s (t ++ v) r → r.submit = some submit →
      r.Turns o c.memory before.length submit x r' → I v r → I (v ++ [x]) r') : I u q := by
  induction u using List.reverseRecOn generalizing q with
  | nil =>
    rw [List.append_nil] at hq
    exact hp.unique hq ▸ start
  | append_singleton u x ih =>
    rw [← List.append_assoc] at hq
    obtain ⟨r, submit, hr, hsubmit, hturns⟩ := hq.last
    exact step (List.prefix_refl _) hr hsubmit hturns
      (ih hr fun hv => step (hv.trans (List.prefix_append _ _)))

end Moment

end CaptureForest.Pass
