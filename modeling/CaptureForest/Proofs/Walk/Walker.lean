import CaptureForest.Memory.Flat
import CaptureForest.Walk.Walker
import CaptureForest.Proofs.Walk.Record
import CaptureForest.Proofs.Walk.Related

/-! # What a walker reports, and when it stops

A walker that counts its levels does what `Walk.run` does, whatever the counter holds to begin with
(`Walk.execute_eq`). What it hands out to a receiver that fails is the beginning of what it hands
out to one that never does, up to the call that failed, and the error is the walker's answer
(`Walk.execute_stops`). -/

namespace CaptureForest

variable {ε σ τ α β : Type}

/-- How an action ended. -/
def answer : EStateM.Result ε σ α → Except ε α
  | .ok a _ => .ok a
  | .error e _ => .error e

/-- The state that an action left behind. -/
def leftover : EStateM.Result ε σ α → σ
  | .ok _ s | .error _ s => s

namespace Walk

/-! ## The counter -/

/-- From depth `d`, the first action does to the receiver what the second does. If it ends well, the
depth is `d` again. -/
def Counts (d : Nat) (x : EStateM Error σ α) (y : EStateM Error (Walker σ) α) : Prop :=
  ∀ s, match x s with
    | .ok a s' => y ⟨d, s⟩ = .ok a ⟨d, s'⟩
    | .error e s' => ∃ d', y ⟨d, s⟩ = .error e ⟨d', s'⟩

namespace Counts

variable {d : Nat}

theorem onReceiver (x : EStateM Error σ α) : Counts d x (onReceiver x) := by
  intro s
  unfold Walk.onReceiver
  cases x s with
  | ok a s' => rfl
  | error e s' => exact ⟨d, rfl⟩

theorem ofExcept (out : Except Error α) :
    Counts (σ := σ) d (MonadExcept.ofExcept out) (MonadExcept.ofExcept out) := by
  cases out with
  | ok a => exact fun s => rfl
  | error e => exact fun s => ⟨d, rfl⟩

theorem bind {x : EStateM Error σ α} {y : EStateM Error (Walker σ) α}
    {f : α → EStateM Error σ β} {g : α → EStateM Error (Walker σ) β} (hx : Counts d x y)
    (hf : ∀ a, Counts d (f a) (g a)) : Counts d (x >>= f) (y >>= g) := by
  intro s
  have hs := hx s
  simp only [Bind.bind, EStateM.bind]
  cases h : x s with
  | ok a s' =>
    rw [h] at hs
    simp only [hs]
    exact hf a s'
  | error e s' =>
    rw [h] at hs
    obtain ⟨d', hs⟩ := hs
    exact ⟨d', by simp only [hs]⟩

theorem receives {x : EStateM Error σ α} {y : EStateM Error (Walker σ) α} (h : Counts d x y)
    (s : σ) : answer (y ⟨d, s⟩) = answer (x s) ∧ (leftover (y ⟨d, s⟩)).receiver = leftover (x s) := by
  have hs := h s
  cases hx : x s with
  | ok a s' =>
    rw [hx] at hs
    rw [hs]
    exact ⟨rfl, rfl⟩
  | error e s' =>
    rw [hx] at hs
    obtain ⟨d', hs⟩ := hs
    rw [hs]
    exact ⟨rfl, rfl⟩

end Counts

theorem relates_byWalker (d : Nat) (w : Walk σ) :
    w.Relates (fun {_} => Counts d) w.byWalker where
  memory := rfl
  submit := rfl
  emit step := .onReceiver (w.emit step)
  ofExcept := .ofExcept
  bind := .bind

theorem descend_eq (va d : Nat) (s : σ) : descend va ⟨d, s⟩ =
    if maxDepth < d + 1 then .error (.violation (.nestingTooDeep va)) ⟨d + 1, s⟩
    else .ok () ⟨d + 1, s⟩ := by
  show (if maxDepth < d + 1 then throw _ else pure _ : EStateM Error (Walker σ) Unit) ⟨d + 1, s⟩ = _
  split <;> rfl

/-- At depth `d`, a walker may go as deep as a walk with the levels that are left to it. -/
theorem level_counts {w : Walk σ} {ibIndex fuel d levels : Nat} (hd : d + levels = maxDepth)
    (hfuel : levels < fuel) (ib : IndirectBuffer) :
    Counts d (w.buffer ibIndex levels ib) (w.level ibIndex fuel ib) := by
  induction levels generalizing d fuel ib with
  | zero =>
    obtain ⟨fuel, rfl⟩ : ∃ n, fuel = n + 1 := ⟨fuel - 1, by omega⟩
    intro s
    have hdeep : maxDepth < d + 1 := by omega
    refine ⟨d + 1, ?_⟩
    simp only [level, bind, EStateM.bind, descend_eq, if_pos hdeep]
  | succ levels ih =>
    obtain ⟨fuel, rfl⟩ : ∃ n, fuel = n + 1 := ⟨fuel - 1, by omega⟩
    intro s
    have hdeeper : ¬maxDepth < d + 1 := by omega
    have hchain : Counts (d + 1) (w.chain (w.buffer ibIndex levels) ibIndex maxChain ib)
        (w.byWalker.chain (w.level ibIndex fuel) ibIndex maxChain ib) :=
      (relates_byWalker (d + 1) w).chain (fun ib => ih (by omega) (by omega) ib) maxChain ib
    have hbuffer : w.buffer ibIndex (levels + 1) ib s =
        w.chain (w.buffer ibIndex levels) ibIndex maxChain ib s := rfl
    have hs := hchain s
    rw [hbuffer]
    simp only [level, bind, EStateM.bind, descend_eq, if_neg hdeeper]
    cases h : w.chain (w.buffer ibIndex levels) ibIndex maxChain ib s with
    | ok a s' =>
      rw [h] at hs
      simp only [hs]
      rfl
    | error e s' =>
      rw [h] at hs
      obtain ⟨d', hs⟩ := hs
      exact ⟨d', by simp only [hs]⟩

theorem listed_counts (w : Walk σ) (ibs : List IndirectBuffer) :
    Counts 0 (w.run ibs) (w.listed ibs) :=
  let h := relates_byWalker 0 w
  h.forM fun (ib, _) => h.bind (h.emit _) fun _ =>
    level_counts (Nat.zero_add _) (Nat.lt_succ_self _) ib

/-- Whatever its counter holds, a walker does to its receiver what the walk does. -/
theorem execute_eq (w : Walk σ) (ibs : List IndirectBuffer) (c : Walker σ) :
    answer (w.execute ibs c) = answer (w.run ibs c.receiver) ∧
      (leftover (w.execute ibs c)).receiver = leftover (w.run ibs c.receiver) :=
  (w.listed_counts ibs).receives c.receiver

/-! ## The calls -/

/-- A call of the receiver, and the error it ended with, if any. -/
abbrev Call := Step × Option Error

/-- The walk that writes down its calls of the receiver. -/
def noting (w : Walk σ) : Walk (σ × List Call) where
  memory := w.memory
  submit := w.submit
  emit step := fun (s, log) => match w.emit step s with
    | .ok a s' => .ok a (s', log ++ [(step, none)])
    | .error e s' => .error e (s', log ++ [(step, some e)])

/-- The calls that a walker issues. -/
def calls (w : Walk σ) (ibs : List IndirectBuffer) (c : Walker σ) : List Call :=
  (leftover (w.noting.execute ibs { c with receiver := (c.receiver, []) })).receiver.2

/-- The steps of the walk, each called once, with the calls `log`, up to the first that fails. -/
inductive Called (w : Walk σ) (out : Except Error Unit) :
    List Step → List Call → Except Error Unit → Prop
  | done : Called w out [] [] out
  | next (step : Step) {t : List Step} {log : List Call} {result : Except Error Unit} :
    Called w out t log result → Called w out (step :: t) ((step, none) :: log) result
  | stop (t : List Step) {step : Step} {e : Error} {s s' : σ} (fails : w.emit step s = .error e s') :
    Called w out (step :: t) [(step, some e)] (.error e)

theorem replay_called (w : Walk σ) (t : List Step) (out : Except Error Unit) (s : σ)
    (log : List Call) :
    ∃ more, (leftover (replay w.noting.emit t out (s, log))).2 = log ++ more ∧
      Called w out t more (answer (replay w.emit t out s)) := by
  induction t generalizing s log with
  | nil =>
    refine ⟨[], ?_, ?_⟩
    · cases out <;> exact (List.append_nil log).symm
    · cases out <;> exact .done
  | cons step t ih =>
    have hreplay {ρ : Type} (emit : Step → EStateM Error ρ Unit) :
        replay emit (step :: t) out = emit step >>= fun _ => replay emit t out := by
      simp only [replay, List.forM_eq_forM, List.forM_cons, bind_assoc]
    rw [hreplay, hreplay]
    simp only [bind, EStateM.bind]
    cases hs : w.emit step s with
    | ok a s' =>
      have hnoting : w.noting.emit step (s, log) = .ok a (s', log ++ [(step, none)]) := by
        simp only [noting, hs]
      obtain ⟨more, hmore, hcalled⟩ := ih s' (log ++ [(step, none)])
      rw [hnoting]
      exact ⟨(step, none) :: more, by rw [hmore, List.append_assoc]; rfl, .next step hcalled⟩
    | error e s' =>
      have hnoting : w.noting.emit step (s, log) = .error e (s', log ++ [(step, some e)]) := by
        simp only [noting, hs]
      rw [hnoting]
      exact ⟨[(step, some e)], rfl, .stop t hs⟩

/-- A walker calls its receiver with the steps of the walk, and its answer is the first error. -/
theorem execute_called (w : Walk σ) (ibs : List IndirectBuffer) (c : Walker σ) :
    Called w (outcome w.memory w.submit ibs) (steps w.memory w.submit ibs) (w.calls ibs c)
      (answer (w.execute ibs c)) := by
  obtain ⟨log, hlog, hcalled⟩ := w.replay_called (steps w.memory w.submit ibs)
    (outcome w.memory w.submit ibs) c.receiver []
  have hcalls : w.calls ibs c = log := by
    unfold calls
    rw [(execute_eq ..).2, run_eq_replay]
    exact hlog
  rw [hcalls, (execute_eq ..).1, run_eq_replay]
  exact hcalled

/-- The call number `k` fails with `e`, and those before it end well. -/
structure FirstError (log : List Call) (k : Nat) (e : Error) : Prop where
  fails : (log.map (·.2))[k]? = some (some e)
  first : ∀ j < k, (log.map (·.2))[j]? = some none

/-- A receiver that never fails. -/
def Tireless (w : Walk σ) : Prop := ∀ step s, ∃ s', w.emit step s = .ok () s'

theorem recorder_tireless (m : Reader) (submit : Nat) : (recorder m submit).Tireless :=
  fun step t => ⟨t ++ [step], rfl⟩

namespace Called

variable {w : Walk σ} {out result : Except Error Unit} {t : List Step} {log : List Call}

/-- The calls are those of the first steps. -/
theorem isPrefix (h : Called w out t log result) : log.map (·.1) <+: t := by
  induction h with
  | done => exact List.prefix_rfl
  | next step _ ih => exact (List.prefix_cons_inj step).mpr ih
  | stop t => exact ⟨t, rfl⟩

/-- A receiver that never fails gets all the steps. -/
theorem steps_eq (h : Called w out t log result) (hw : w.Tireless) : log.map (·.1) = t := by
  induction h with
  | done => rfl
  | next step _ ih => exact congrArg (step :: ·) ih
  | @stop t step e s s' fails =>
    obtain ⟨_, hs⟩ := hw step s
    exact nomatch hs.symm.trans fails

/-- The first call that fails is the last. -/
theorem firstError (h : Called w out t log result) {k : Nat} {e : Error}
    (hk : FirstError log k e) :
    result = .error e ∧ log.length = k + 1 ∧ log.map (·.1) = t.take (k + 1) := by
  induction h generalizing k with
  | done => exact nomatch hk.fails
  | next step _ ih =>
    cases k with
    | zero => exact nomatch hk.fails
    | succ k =>
      obtain ⟨hresult, hlength, hsteps⟩ := ih ⟨hk.fails, fun j hj => hk.first (j + 1) (by omega)⟩
      exact ⟨hresult, by rw [List.length_cons, hlength], congrArg (step :: ·) hsteps⟩
  | @stop t step e' s s' fails =>
    cases k with
    | zero =>
      obtain rfl : e' = e := by simpa using hk.fails
      exact ⟨rfl, rfl, rfl⟩
    | succ k => exact nomatch hk.first 0 (by omega)

end Called

/-- If the call number `k` is the first that fails, then its error is the walker's answer, it is the
last call, and the calls are those that a receiver that never fails gets first. However a walk ends,
the next walk of the same walker is that of a new one, for any receiver. -/
theorem execute_stops (w : Walk σ) (ibs : List IndirectBuffer) (c : Walker σ) :
    (∀ k e, FirstError (w.calls ibs c) k e →
      answer (w.execute ibs c) = .error e ∧ (w.calls ibs c).length = k + 1 ∧
        ∀ {τ : Type} (tireless : Walk τ) (c' : Walker τ), tireless.memory = w.memory →
          tireless.submit = w.submit → tireless.Tireless →
          (w.calls ibs c).map (·.1) = ((tireless.calls ibs c').map (·.1)).take (k + 1)) ∧
      ∀ {τ : Type} (next : Walk τ) (nextIbs : List IndirectBuffer) (t : τ),
        let d := (leftover (w.execute ibs c)).depth
        next.calls nextIbs ⟨d, t⟩ = next.calls nextIbs ⟨0, t⟩ ∧
          next.execute nextIbs ⟨d, t⟩ = next.execute nextIbs ⟨0, t⟩ := by
  constructor
  · intro k e hk
    obtain ⟨hanswer, hlength, hsteps⟩ := (w.execute_called ibs c).firstError hk
    refine ⟨hanswer, hlength, fun {τ} tireless c' hmemory hsubmit htireless => ?_⟩
    have hall := (tireless.execute_called ibs c').steps_eq htireless
    rw [hsteps, hall, hmemory, hsubmit]
  · exact fun next nextIbs t => ⟨rfl, rfl⟩

/-- A receiver that fails at its fourth call, the packet of a called buffer; the walker is then two
levels deep. -/
theorem execute_stops_in_call :
    let memory := Reader.flat (Words.toBytes
      #[Header.ofOpcode Opcode.callPfe 3, 16, 0, 1, Header.ofOpcode Opcode.nop 0])
    let ibs : List IndirectBuffer := [{ va := 0, size := 4 }]
    let w : Walk Nat :=
      { memory, submit := 0
        emit := fun _ => do if (← get) = 3 then throw (.violation (.stopped "full")) else modify (· + 1) }
    (leftover (w.execute ibs ⟨0, 0⟩)).depth = 2 ∧
      answer (w.execute ibs ⟨0, 0⟩) = .error (.violation (.stopped "full")) ∧
      (w.calls ibs ⟨0, 0⟩).map (·.1) =
        (((recorder memory 0).calls ibs ⟨5, []⟩).map (·.1)).take 4 ∧
      w.execute ibs ⟨2, 0⟩ = w.execute ibs ⟨0, 0⟩ := by
  intro memory ibs w
  have hdepth : (leftover (w.execute ibs ⟨0, 0⟩)).depth = 2 := by decide +kernel
  have hfourth : FirstError (w.calls ibs ⟨0, 0⟩) 3 (.violation (.stopped "full")) :=
    ⟨by decide +kernel, by decide +kernel⟩
  obtain ⟨hstops, hnext⟩ := execute_stops w ibs ⟨0, 0⟩
  obtain ⟨hanswer, -, hsteps⟩ := hstops 3 _ hfourth
  have hagain := (hnext w ibs 0).2
  rw [hdepth] at hagain
  exact ⟨hdepth, hanswer,
    hsteps (recorder memory 0) ⟨5, []⟩ rfl rfl (recorder_tireless memory 0), hagain⟩

end Walk

end CaptureForest
