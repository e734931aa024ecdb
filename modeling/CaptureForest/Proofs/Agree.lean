import CaptureForest.Proofs.Action

/-! # Actions that agree

`Agree x s y t Q` compares two actions, each with a state to start in: either both end well, and
then `Q` holds of both values and both states, or both fail for the same cause. Actions that are put
together alike agree if their parts do, and what is known of each of two actions alone says how they
agree. -/

namespace CaptureForest

variable {ε σ τ α β γ δ : Type}

/-- From `s` and `t` both actions end, together in `Q`, or both fail with one error. -/
def Agree (x : EStateM ε σ α) (s : σ) (y : EStateM ε τ β) (t : τ) (Q : α → σ → β → τ → Prop) :
    Prop :=
  match x s, y t with
  | .ok a s', .ok b t' => Q a s' b t'
  | .error e _, .error e' _ => e = e'
  | _, _ => False

variable {x : EStateM ε σ α} {y : EStateM ε τ β} {s : σ} {t : τ} {Q Q' : α → σ → β → τ → Prop}
  {P : α → σ → Prop} {P' : β → τ → Prop} {E : ε → σ → Prop} {E' : ε → τ → Prop}

namespace Agree

theorem of_ok {a : α} {s' : σ} {b : β} {t' : τ} (hx : x s = .ok a s') (hy : y t = .ok b t')
    (h : Q a s' b t') : Agree x s y t Q := by
  unfold Agree
  rw [hx, hy]
  exact h

theorem of_error {e : ε} {s' : σ} {t' : τ} (hx : x s = .error e s') (hy : y t = .error e t') :
    Agree x s y t Q := by
  unfold Agree
  rw [hx, hy]

/-- Both actions end well, or both fail. -/
theorem cases (h : Agree x s y t Q) :
    (∃ a s' b t', x s = .ok a s' ∧ y t = .ok b t' ∧ Q a s' b t') ∨
      ∃ e s' t', x s = .error e s' ∧ y t = .error e t' := by
  unfold Agree at h
  cases hx : x s with
  | ok a s' =>
    cases hy : y t with
    | ok b t' =>
      rw [hx, hy] at h
      exact .inl ⟨a, s', b, t', rfl, rfl, h⟩
    | error e t' =>
      rw [hx, hy] at h
      exact h.elim
  | error e s' =>
    cases hy : y t with
    | ok b t' =>
      rw [hx, hy] at h
      exact h.elim
    | error e' t' =>
      rw [hx, hy] at h
      obtain rfl : e = e' := h
      exact .inr ⟨e, s', t', rfl, rfl⟩

theorem imp (h : Agree x s y t Q) (hQ : ∀ a s' b t', Q a s' b t' → Q' a s' b t') :
    Agree x s y t Q' := by
  obtain ⟨a, s', b, t', hx, hy, h⟩ | ⟨e, s', t', hx, hy⟩ := h.cases
  · exact .of_ok hx hy (hQ a s' b t' h)
  · exact .of_error hx hy

/-- What is known of each of the actions alone is true where they agree. -/
theorem and_leads (h : Agree x s y t Q) (hx : Leads x s P E) (hy : Leads y t P' E') :
    Agree x s y t fun a s' b t' => Q a s' b t' ∧ P a s' ∧ P' b t' := by
  obtain ⟨a, s', b, t', hxs, hyt, h⟩ | ⟨e, s', t', hxs, hyt⟩ := h.cases
  · exact .of_ok hxs hyt ⟨h, hx.of_ok hxs, hy.of_ok hyt⟩
  · exact .of_error hxs hyt

/-- Two actions agree if they fail for one cause, and the same decides whether they do. -/
theorem of_leads {c c' : Prop} {cause : ε} (hc : c → ¬c')
    (hx : Leads x s (fun a s' => c ∧ P a s') fun e _ => e = cause ∧ c')
    (hy : Leads y t (fun b t' => c ∧ P' b t') fun e _ => e = cause ∧ c')
    (hok : ∀ a s' b t', c → P a s' → P' b t' → Q a s' b t') : Agree x s y t Q := by
  cases hxs : x s with
  | ok a s' =>
    obtain ⟨hholds, hP⟩ := hx.of_ok hxs
    cases hyt : y t with
    | ok b t' => exact .of_ok hxs hyt (hok a s' b t' hholds hP (hy.of_ok hyt).2)
    | error e t' => exact absurd (hy.of_error hyt).2 (hc hholds)
  | error e s' =>
    obtain ⟨rfl, hfails⟩ := hx.of_error hxs
    cases hyt : y t with
    | ok b t' => exact absurd hfails (hc (hy.of_ok hyt).1)
    | error e' t' =>
      obtain ⟨rfl, -⟩ := hy.of_error hyt
      exact .of_error hxs hyt

theorem of_succeeds (hx : Succeeds x s P) (hy : Succeeds y t P')
    (hok : ∀ a s' b t', P a s' → P' b t' → Q a s' b t') : Agree x s y t Q := by
  obtain ⟨a, s', hxs, hP⟩ := hx.exists_ok
  obtain ⟨b, t', hyt, hP'⟩ := hy.exists_ok
  exact .of_ok hxs hyt (hok a s' b t' hP hP')

theorem bind {f : α → EStateM ε σ γ} {g : β → EStateM ε τ δ} {R : γ → σ → δ → τ → Prop}
    (h : Agree x s y t Q) (hf : ∀ a s' b t', Q a s' b t' → Agree (f a) s' (g b) t' R) :
    Agree (x >>= f) s (y >>= g) t R := by
  obtain ⟨a, s', b, t', hx, hy, h⟩ | ⟨e, s', t', hx, hy⟩ := h.cases
  · have hf := hf a s' b t' h
    unfold Agree at hf ⊢
    simp only [Bind.bind, EStateM.bind, hx, hy]
    exact hf
  · have hxf : (x >>= f) s = .error e s' := by simp only [Bind.bind, EStateM.bind, hx]
    have hyg : (y >>= g) t = .error e t' := by simp only [Bind.bind, EStateM.bind, hy]
    exact .of_error hxf hyg

theorem pure {a : α} {b : β} (h : Q a s b t) :
    Agree (Pure.pure a : EStateM ε σ α) s (Pure.pure b : EStateM ε τ β) t Q := h

theorem throw (e : ε) : Agree (throw e : EStateM ε σ α) s (throw e : EStateM ε τ β) t Q :=
  .of_error rfl rfl

/-- Both actions look at their states first. -/
theorem get_bind {f : σ → EStateM ε σ γ} {g : τ → EStateM ε τ δ} {R : γ → σ → δ → τ → Prop}
    (h : Agree (f s) s (g t) t R) : Agree (get >>= f) s (get >>= g) t R := h

/-- Both actions change their states first. -/
theorem modify_bind {f : σ → σ} {g : τ → τ} {k : PUnit → EStateM ε σ γ} {l : PUnit → EStateM ε τ δ}
    {R : γ → σ → δ → τ → Prop} (h : Agree (k ⟨⟩) (f s) (l ⟨⟩) (g t) R) :
    Agree (modify f >>= k) s (modify g >>= l) t R := h

theorem modify {f : σ → σ} {g : τ → τ} {R : PUnit → σ → PUnit → τ → Prop}
    (h : R ⟨⟩ (f s) ⟨⟩ (g t)) :
    Agree (modify f : EStateM ε σ PUnit) s (modify g : EStateM ε τ PUnit) t R := h

theorem ofExcept {a? : Except ε α} {Q : α → σ → α → τ → Prop} (h : ∀ a, a? = .ok a → Q a s a t) :
    Agree (MonadExcept.ofExcept a? : EStateM ε σ α) s (MonadExcept.ofExcept a? : EStateM ε τ α) t
      Q := by
  cases a? with
  | ok a => exact h a rfl
  | error e => exact .of_error rfl rfl

/-- One condition decides for both. -/
theorem ite {c : Prop} [Decidable c] {x' : EStateM ε σ α} {y' : EStateM ε τ β}
    (h : c → Agree x s y t Q) (h' : ¬c → Agree x' s y' t Q) :
    Agree (if c then x else x') s (if c then y else y') t Q := by
  split
  · exact h ‹_›
  · exact h' ‹_›

/-- A loop over the same items, whose invariant knows the items that were dealt with. -/
theorem forM {l : List γ} {f : γ → EStateM ε σ PUnit} {g : γ → EStateM ε τ PUnit}
    {I : List γ → σ → τ → Prop} (init : I [] s t)
    (step : ∀ done a rest s t, l = done ++ a :: rest → I done s t →
      Agree (f a) s (g a) t fun _ s' _ t' => I (done ++ [a]) s' t') :
    Agree (l.forM f) s (l.forM g) t fun _ s' _ t' => I l s' t' := by
  suffices H : ∀ rest done s t, l = done ++ rest → I done s t →
      Agree (rest.forM f) s (rest.forM g) t fun _ s' _ t' => I l s' t' from H l [] s t rfl init
  intro rest
  induction rest with
  | nil =>
    intro done s t hl hI
    rw [List.append_nil] at hl
    subst hl
    exact hI
  | cons a rest ih =>
    intro done s t hl hI
    simp only [List.forM_eq_forM, List.forM_cons]
    exact (step done a rest s t hl hI).bind fun _ s' _ t' hI' =>
      ih (done ++ [a]) s' t' (by simp [hl]) hI'

end Agree

end CaptureForest
