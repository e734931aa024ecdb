/-! # What an action leads to

`Leads x s Q E` says how the action `x` ends when it starts in the state `s`: well, and then `Q`
holds of its value and the state, or with an error, and then `E` holds of the error and the state.
Each way of putting actions together has a lemma that takes the statement apart. `Upholds I x` says
that the action keeps `I` from any state, be it by failing. -/

namespace CaptureForest

variable {ε σ α β : Type}

/-- From `s` the action ends in `Q`, or it fails in `E`. -/
def Leads (x : EStateM ε σ α) (s : σ) (Q : α → σ → Prop) (E : ε → σ → Prop) : Prop :=
  match x s with
  | .ok a s' => Q a s'
  | .error e s' => E e s'

variable {x : EStateM ε σ α} {s : σ} {Q Q' : α → σ → Prop} {E E' : ε → σ → Prop}

theorem Leads.intro {a : α} {s' : σ} (hx : x s = .ok a s') (h : Q a s') : Leads x s Q E := by
  unfold Leads; rw [hx]; exact h

/-- The same, with the value and the state named. -/
theorem Leads.intro_at (a : α) (s' : σ) (hx : x s = .ok a s') (h : Q a s') : Leads x s Q E :=
  .intro hx h

theorem Leads.of_ok {a : α} {s' : σ} (hx : x s = .ok a s') (h : Leads x s Q E) : Q a s' := by
  unfold Leads at h; rw [hx] at h; exact h

theorem Leads.of_error {e : ε} {s' : σ} (hx : x s = .error e s') (h : Leads x s Q E) : E e s' := by
  unfold Leads at h; rw [hx] at h; exact h

/-- From `s` the action ends in `Q`. -/
abbrev Succeeds (x : EStateM ε σ α) (s : σ) (Q : α → σ → Prop) : Prop :=
  Leads x s Q fun _ _ => False

instance [∀ a s, Decidable (Q a s)] [∀ e s, Decidable (E e s)] : Decidable (Leads x s Q E) :=
  match hx : x s with
  | .ok a s' => decidable_of_decidable_of_iff (p := Q a s') (by rw [Leads, hx])
  | .error e s' => decidable_of_decidable_of_iff (p := E e s') (by rw [Leads, hx])

theorem Succeeds.exists_ok (h : Succeeds x s Q) : ∃ a s', x s = .ok a s' ∧ Q a s' := by
  cases hx : x s with
  | ok a s' => exact ⟨a, s', rfl, h.of_ok hx⟩
  | error e s' => exact (h.of_error hx).elim

/-- If a property of values can be computed, then so can that there is a value with it. -/
instance decidableExistsOk {e : Except ε α} {P : α → Prop} [DecidablePred P] :
    Decidable (∃ a, e = .ok a ∧ P a) :=
  match e with
  | .ok a => decidable_of_iff (P a) (by simp)
  | .error _ => .isFalse nofun

theorem Leads.mono (h : Leads x s Q E) (hQ : ∀ a s', Q a s' → Q' a s')
    (hE : ∀ e s', E e s' → E' e s') : Leads x s Q' E' := by
  unfold Leads at *
  cases hx : x s with
  | ok a s' => rw [hx] at h; exact hQ a s' h
  | error e s' => rw [hx] at h; exact hE e s' h

theorem Leads.imp (h : Leads x s Q E) (hQ : ∀ a s', Q a s' → Q' a s') : Leads x s Q' E :=
  h.mono hQ fun _ _ => id

/-- An action that cannot fail may stand where others do. -/
theorem Succeeds.leads (h : Succeeds x s Q) (hQ : ∀ a s', Q a s' → Q' a s') : Leads x s Q' E :=
  h.mono hQ fun _ _ => False.elim

theorem Leads.and (h : Leads x s Q E) (h' : Leads x s Q' E') :
    Leads x s (fun a s' => Q a s' ∧ Q' a s') fun e s' => E e s' ∧ E' e s' := by
  unfold Leads at *
  cases hx : x s with
  | ok a s' => rw [hx] at h h'; exact ⟨h, h'⟩
  | error e s' => rw [hx] at h h'; exact ⟨h, h'⟩

/-! ## Taking actions apart -/

@[simp]
theorem leads_pure {a : α} : Leads (pure a) s Q E ↔ Q a s := Iff.rfl

@[simp]
theorem leads_throw {e : ε} : Leads (throw e : EStateM ε σ α) s Q E ↔ E e s := Iff.rfl

@[simp]
theorem leads_get {Q : σ → σ → Prop} : Leads get s Q E ↔ Q s s := Iff.rfl

@[simp]
theorem leads_set {s' : σ} {Q : PUnit → σ → Prop} :
    Leads (set s' : EStateM ε σ PUnit) s Q E ↔ Q ⟨⟩ s' := Iff.rfl

@[simp]
theorem leads_modify {f : σ → σ} {Q : PUnit → σ → Prop} :
    Leads (modify f : EStateM ε σ PUnit) s Q E ↔ Q ⟨⟩ (f s) := Iff.rfl

@[simp]
theorem leads_bind {f : α → EStateM ε σ β} {Q : β → σ → Prop} :
    Leads (x >>= f) s Q E ↔ Leads x s (fun a s' => Leads (f a) s' Q E) E := by
  unfold Leads
  simp only [bind, EStateM.bind]
  cases x s <;> rfl

@[simp]
theorem leads_map {f : α → β} {Q : β → σ → Prop} :
    Leads (f <$> x) s Q E ↔ Leads x s (fun a s' => Q (f a) s') E := by
  unfold Leads
  simp only [Functor.map, EStateM.map]
  cases x s <;> rfl

@[simp]
theorem leads_discard {Q : PUnit → σ → Prop} :
    Leads (discard x) s Q E ↔ Leads x s (fun _ s' => Q ⟨⟩ s') E := by
  unfold discard
  simp only [Functor.mapConst, Function.comp_apply]
  exact leads_map

@[simp]
theorem leads_ofExcept {a? : Except ε α} :
    Leads (MonadExcept.ofExcept a?) s Q E ↔
      match a? with
      | .ok a => Q a s
      | .error e => E e s := by
  cases a? <;> rfl

theorem leads_ite {c : Prop} [Decidable c] {y : EStateM ε σ α} :
    Leads (if c then x else y) s Q E ↔ (c → Leads x s Q E) ∧ (¬c → Leads y s Q E) := by
  split <;> simp_all

/-- Two actions that end well in a row go through the state between them. -/
theorem exists_of_bind_eq_ok {f : α → EStateM ε σ β} {b : β} {s' : σ}
    (h : (x >>= f) s = .ok b s') : ∃ a r, x s = .ok a r ∧ f a r = .ok b s' := by
  simp only [bind, EStateM.bind] at h
  cases hx : x s with
  | ok a r => rw [hx] at h; exact ⟨a, r, rfl, h⟩
  | error e r => rw [hx] at h; cases h

theorem Leads.bind {f : α → EStateM ε σ β} {R : β → σ → Prop} (h : Leads x s Q E)
    (hf : ∀ a s', Q a s' → Leads (f a) s' R E) : Leads (x >>= f) s R E :=
  leads_bind.mpr (h.imp hf)

theorem Succeeds.bind {f : α → EStateM ε σ β} {R : β → σ → Prop} (h : Succeeds x s Q)
    (hf : ∀ a s', Q a s' → Leads (f a) s' R E) : Leads (x >>= f) s R E :=
  leads_bind.mpr (h.leads hf)

/-- The action ends in `Q` if `C` is true, and it fails if not. -/
abbrev Decides (x : EStateM ε σ α) (s : σ) (C : Prop) (Q : α → σ → Prop) : Prop :=
  Leads x s (fun a s' => C ∧ Q a s') fun _ _ => ¬C

namespace Decides

variable {C C' : Prop}

theorem succeeds (h : Decides x s C Q) (hC : C) : Succeeds x s Q :=
  h.mono (fun _ _ h => h.2) fun _ _ hn => hn hC

theorem congr (h : Decides x s C Q) (hC : C ↔ C') : Decides x s C' Q :=
  h.mono (fun _ _ h => ⟨hC.mp h.1, h.2⟩) fun _ _ hn => mt hC.mpr hn

theorem imp (h : Decides x s C Q) (hQ : ∀ a s', C → Q a s' → Q' a s') : Decides x s C Q' :=
  Leads.imp h fun a s' h => ⟨h.1, hQ a s' h.1 h.2⟩

theorem bind {f : α → EStateM ε σ β} {R : β → σ → Prop} (h : Decides x s C Q)
    (hf : ∀ a s', C → Q a s' → Decides (f a) s' C' R) : Decides (x >>= f) s (C ∧ C') R :=
  leads_bind.mpr (h.mono
    (fun a s' ha => (hf a s' ha.1 ha.2).mono (fun _ _ hb => ⟨⟨ha.1, hb.1⟩, hb.2⟩)
      fun _ _ hn hC => hn hC.2)
    fun _ _ hn hC => hn hC.1)

end Decides

/-! ## Loops -/

/-- A loop, whose invariant knows the items that were dealt with. -/
theorem Leads.forM {l : List α} {f : α → EStateM ε σ PUnit} {I : List α → σ → Prop}
    (init : I [] s) (step : ∀ done a rest s, l = done ++ a :: rest → I done s →
      Leads (f a) s (fun _ s' => I (done ++ [a]) s') E) :
    Leads (l.forM f) s (fun _ s' => I l s') E := by
  suffices H : ∀ rest done s, l = done ++ rest → I done s →
      Leads (rest.forM f) s (fun _ s' => I l s') E from H l [] s rfl init
  intro rest
  induction rest with
  | nil =>
    intro done s hl hI
    rw [List.append_nil] at hl
    subst hl
    exact hI
  | cons a rest ih =>
    intro done s hl hI
    rw [List.forM_eq_forM, List.forM_cons, leads_bind]
    exact (step done a rest s hl hI).imp fun _ s' hI' => ih (done ++ [a]) s' (by simp [hl]) hI'

theorem array_forM_eq {l : Array α} {f : α → EStateM ε σ PUnit} : l.forM f = l.toList.forM f := by
  rw [Array.forM_eq_forM, ← List.forM_toArray]

theorem forM_flatMap {l : List α} {f : α → List β} {g : β → EStateM ε σ PUnit} :
    (l.flatMap f).forM g = l.forM fun a => (f a).forM g := by
  induction l with
  | nil => rfl
  | cons a l ih =>
    rw [List.forM_eq_forM] at ih ⊢
    rw [List.flatMap_cons, List.forM_append, ih]
    rfl

/-- A loop with an invariant. -/
theorem Leads.forM_const {l : List α} {f : α → EStateM ε σ PUnit} {I : σ → Prop} (init : I s)
    (step : ∀ a ∈ l, ∀ s, I s → Leads (f a) s (fun _ s' => I s') E) :
    Leads (l.forM f) s (fun _ s' => I s') E :=
  Leads.forM (I := fun _ => I) init fun done a rest s hl => step a (by simp [hl]) s

/-! ## Invariants -/

/-- What is true before the action is true behind it, whether it ends well or fails. -/
def Upholds (I : σ → Prop) (x : EStateM ε σ α) : Prop :=
  ∀ s, I s → Leads x s (fun _ s' => I s') fun _ s' => I s'

namespace Upholds

variable {I : σ → Prop}

theorem pure {a : α} : Upholds I (Pure.pure a : EStateM ε σ α) := fun _ hs => hs

theorem throw {e : ε} : Upholds I (throw e : EStateM ε σ α) := fun _ hs => hs

theorem get : Upholds I (get : EStateM ε σ σ) := fun _ hs => hs

theorem set {s : σ} (h : I s) : Upholds I (set s : EStateM ε σ PUnit) := fun _ _ => h

theorem modify {f : σ → σ} (h : ∀ s, I s → I (f s)) :
    Upholds I (modify f : EStateM ε σ PUnit) := h

theorem ofExcept {a? : Except ε α} : Upholds I (MonadExcept.ofExcept a? : EStateM ε σ α) := by
  cases a? with
  | ok a => exact pure
  | error e => exact throw

theorem bind {f : α → EStateM ε σ β} (hx : Upholds I x) (hf : ∀ a, Upholds I (f a)) :
    Upholds I (x >>= f) := fun s hs => (hx s hs).bind fun a s' hs' => hf a s' hs'

theorem discard (hx : Upholds I x) : Upholds I (discard x) :=
  fun s hs => leads_discard.mpr (hx s hs)

theorem ite {c : Prop} [Decidable c] {y : EStateM ε σ α} (hx : Upholds I x) (hy : Upholds I y) :
    Upholds I (if c then x else y) := by
  split
  · exact hx
  · exact hy

/-- Two ways that go on alike. -/
theorem ite_bind {c : Prop} [Decidable c] {y : EStateM ε σ α} {f : α → EStateM ε σ β}
    (hx : Upholds I x) (hy : Upholds I y) (hf : ∀ a, Upholds I (f a)) :
    Upholds I (if c then x >>= f else y >>= f) :=
  .ite (.bind hx hf) (.bind hy hf)

theorem forM {l : List β} {f : β → EStateM ε σ PUnit} (hf : ∀ b, Upholds I (f b)) :
    Upholds I (l.forM f) :=
  fun _ hs => .forM_const hs fun b _ => hf b

theorem array_forM {l : Array β} {f : β → EStateM ε σ PUnit} (hf : ∀ b, Upholds I (f b)) :
    Upholds I (l.forM f) := by
  rw [array_forM_eq]
  exact .forM hf

end Upholds

/-! ## Failures that are passed over -/

/-- The state that an action leaves, whether it ends well or fails. -/
def stateAfter (x : EStateM ε σ α) (s : σ) : σ :=
  match x s with
  | .ok _ s' | .error _ s' => s'

/-- The state that a row of actions leaves, if those that fail do not keep the others from going
on. -/
def stateAfterAll (f : β → EStateM ε σ α) (l : List β) (s : σ) : σ :=
  l.foldl (fun s b => stateAfter (f b) s) s

theorem Upholds.stateAfter {P : σ → Prop} (h : Upholds P x) (hs : P s) : P (stateAfter x s) := by
  unfold CaptureForest.stateAfter
  cases hx : x s with
  | ok a s' => exact (h s hs).of_ok hx
  | error e s' => exact (h s hs).of_error hx

/-- What every action of a row preserves, be it by failing, is true behind the row. -/
theorem stateAfterAll_induct {f : β → EStateM ε σ α} {l : List β} {P : σ → Prop} (init : P s)
    (step : ∀ b, Upholds P (f b)) : P (stateAfterAll f l s) := by
  induction l generalizing s with
  | nil => exact init
  | cons b l ih => exact ih ((step b).stateAfter init)

end CaptureForest
