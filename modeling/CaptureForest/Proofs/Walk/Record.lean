import CaptureForest.Proofs.Action
import CaptureForest.Proofs.Walk.Related

/-! # Records of walks

What a walk reports depends on the memory and the buffers alone. `Walk.recorder` writes the steps
down and is never stopped, and every walk hands the recorded steps to its receiver one by one,
until the receiver stops it or the record ends (`Walk.run_eq_replay`). What a receiver makes of a
walk is therefore a matter of the list `Walk.steps`. -/

namespace CaptureForest.Walk

variable {σ α β : Type}

/-- The walk that writes down its steps. -/
def recorder (m : Reader) (submit : Nat) : Walk (List Step) where
  memory := m
  submit := submit
  emit step := modify (· ++ [step])

/-- The steps of the walk of a submit's buffers, up to its end or to the error that ends it. -/
def steps (m : Reader) (submit : Nat) (ibs : List IndirectBuffer) : List Step :=
  match (recorder m submit).run ibs [] with
  | .ok _ t | .error _ t => t

/-- How the walk of a submit's buffers ends if its receiver does not stop it. -/
def outcome (m : Reader) (submit : Nat) (ibs : List IndirectBuffer) : Except Error Unit :=
  match (recorder m submit).run ibs [] with
  | .ok _ _ => .ok ()
  | .error e _ => .error e

/-- Hands steps to a receiver and ends in a given way. -/
def replay (emit : Step → EStateM Error σ Unit) (t : List Step) (out : Except Error α) :
    EStateM Error σ α := do
  t.forM emit
  MonadExcept.ofExcept out

/-- The action `x` reports steps that `r` writes down, and ends as `r` ends. -/
def Replays (emit : Step → EStateM Error σ Unit) (x : EStateM Error σ α)
    (r : EStateM Error (List Step) α) : Prop :=
  ∃ (u : List Step) (out : Except Error α), x = replay emit u out ∧
    ∀ t, r t = match out with
      | .ok a => .ok a (t ++ u)
      | .error e => .error e (t ++ u)

namespace Replays

variable {emit : Step → EStateM Error σ Unit}

theorem ofExcept (out : Except Error α) :
    Replays emit (MonadExcept.ofExcept out) (MonadExcept.ofExcept out) := by
  refine ⟨[], out, rfl, fun t => ?_⟩
  cases out <;> rw [List.append_nil] <;> rfl

theorem emit_record (m : Reader) (submit : Nat) (step : Step) :
    Replays emit (emit step) ((recorder m submit).emit step) := by
  refine ⟨[step], .ok (), ?_, fun t => rfl⟩
  have : (MonadExcept.ofExcept (.ok ()) : EStateM Error σ Unit) = Pure.pure () := rfl
  simp only [replay, List.forM_eq_forM, List.forM_cons, List.forM_nil, this, bind_assoc, pure_bind]
  exact (bind_pure (emit step)).symm

theorem bind {x : EStateM Error σ α} {r : EStateM Error (List Step) α}
    {f : α → EStateM Error σ β} {g : α → EStateM Error (List Step) β} (hx : Replays emit x r)
    (hf : ∀ a, Replays emit (f a) (g a)) : Replays emit (x >>= f) (r >>= g) := by
  obtain ⟨u, out, rfl, hr⟩ := hx
  cases out with
  | error e =>
    refine ⟨u, .error e, ?_, fun t => ?_⟩
    · simp only [replay, bind_assoc]; rfl
    · simp only [Bind.bind, EStateM.bind, hr]
  | ok a =>
    obtain ⟨v, out, hfa, hg⟩ := hf a
    refine ⟨u ++ v, out, ?_, fun t => ?_⟩
    · have : (MonadExcept.ofExcept (.ok a) : EStateM Error σ α) = Pure.pure a := rfl
      simp only [replay, bind_assoc, this, pure_bind, hfa, List.forM_eq_forM, List.forM_append]
    · simp only [Bind.bind, EStateM.bind, hr, hg, List.append_assoc]

end Replays

theorem relates_recorder (w : Walk σ) :
    w.Relates (fun {_} => Replays w.emit) (recorder w.memory w.submit) where
  memory := rfl
  submit := rfl
  emit := .emit_record w.memory w.submit
  ofExcept := .ofExcept
  bind := .bind

/-- A walk hands the recorded steps to its receiver in order, and then ends as the record ends. -/
theorem run_eq_replay (w : Walk σ) (ibs : List IndirectBuffer) :
    w.run ibs = replay w.emit (steps w.memory w.submit ibs) (outcome w.memory w.submit ibs) := by
  obtain ⟨u, out, hw, hr⟩ := w.relates_recorder.run ibs
  have h := hr []
  rw [hw, steps, outcome, h]
  cases out <;> simp

end CaptureForest.Walk
