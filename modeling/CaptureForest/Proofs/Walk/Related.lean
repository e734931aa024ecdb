import CaptureForest.Walk.Run

/-! # Related walks

Two walks over the same memory differ in their receivers alone. If a relation between actions holds
of what the two receivers do with each step, and of actions that are put together from related ones,
then it holds of the two walks as a whole. -/

namespace CaptureForest.Walk

variable {σ τ : Type} {R : ∀ {α : Type}, EStateM Error σ α → EStateM Error τ α → Prop}

/-- Walks over the same memory, whose receivers do related things with every step. -/
structure Relates (R : ∀ {α : Type}, EStateM Error σ α → EStateM Error τ α → Prop) (w : Walk σ)
    (w' : Walk τ) : Prop where
  memory : w'.memory = w.memory
  submit : w'.submit = w.submit
  emit (step : Step) : R (w.emit step) (w'.emit step)
  ofExcept {α : Type} (out : Except Error α) :
    R (MonadExcept.ofExcept out : EStateM Error σ α) (MonadExcept.ofExcept out)
  bind {α β : Type} {x : EStateM Error σ α} {y : EStateM Error τ α}
    {f : α → EStateM Error σ β} {g : α → EStateM Error τ β} (hx : R x y)
    (hf : ∀ a, R (f a) (g a)) : R (x >>= f) (y >>= g)

namespace Relates

variable {w : Walk σ} {w' : Walk τ} {call : IndirectBuffer → EStateM Error σ Unit}
  {call' : IndirectBuffer → EStateM Error τ Unit} {ibIndex : Nat}

theorem pure (h : w.Relates R w') {α : Type} (a : α) : R (Pure.pure a) (Pure.pure a) :=
  h.ofExcept (.ok a)

theorem throw (h : w.Relates R w') {α : Type} (e : Error) :
    R (throw e : EStateM Error σ α) (throw e) :=
  h.ofExcept (.error e)

theorem followPacket (h : w.Relates R w') (hcall : ∀ ib, R (call ib) (call' ib))
    (ib : IndirectBuffer) (va : Nat) (kind : PacketKind) (header : UInt32) :
    R (w.followPacket call ibIndex ib va kind header)
      (w'.followPacket call' ibIndex ib va kind header) := by
  unfold Walk.followPacket
  rw [h.memory, h.submit]
  split
  · split
    · exact h.ofExcept _
    · split
      · refine h.bind (h.ofExcept _) fun target? => ?_
        cases target? with
        | none => exact h.pure none
        | some target => exact h.bind (h.emit _) fun _ => h.bind (hcall target) fun _ => h.pure none
      · exact h.pure none
  · exact h.pure none

theorem packets (h : w.Relates R w') (hcall : ∀ ib, R (call ib) (call' ib)) (ib : IndirectBuffer)
    (stop : Nat) (le : stop ≤ maxAddress) (va : Nat) :
    R (w.packets call ibIndex ib stop le va) (w'.packets call' ibIndex ib stop le va) := by
  induction va using WellFounded.induction (measure fun va => stop - va).wf with
  | _ va ih =>
    unfold Walk.packets
    rw [h.memory, h.submit]
    split
    · rename_i lt
      refine h.bind (h.ofExcept _) fun header => h.bind (h.emit _) fun _ =>
        h.bind (h.followPacket hcall ib va _ header) fun next? => ?_
      cases next? with
      | some next => exact h.pure _
      | none =>
        refine ih _ ?_
        have := lt_nextAddress (PacketKind.ofHeader header) header lt le
        show stop - _ < stop - va
        omega
    · exact h.pure none

theorem content (h : w.Relates R w') (hcall : ∀ ib, R (call ib) (call' ib)) (ib : IndirectBuffer) :
    R (w.content call ibIndex ib) (w'.content call' ibIndex ib) := by
  unfold Walk.content
  rw [h.submit]
  split
  · exact h.pure none
  · split
    · exact h.packets hcall ib _ _ _
    · exact h.throw _

theorem chain (h : w.Relates R w') (hcall : ∀ ib, R (call ib) (call' ib)) (links : Nat)
    (ib : IndirectBuffer) :
    R (w.chain call ibIndex links ib) (w'.chain call' ibIndex links ib) := by
  induction links generalizing ib with
  | zero =>
    unfold Walk.chain
    refine h.bind (h.content hcall ib) fun next? => ?_
    cases next? with
    | none => exact h.emit _
    | some next => exact h.throw _
  | succ links ih =>
    unfold Walk.chain
    refine h.bind (h.content hcall ib) fun next? => ?_
    cases next? with
    | none => exact h.emit _
    | some next => exact h.bind (h.emit _) fun _ => ih next

theorem buffer (h : w.Relates R w') (levels : Nat) (ib : IndirectBuffer) :
    R (w.buffer ibIndex levels ib) (w'.buffer ibIndex levels ib) := by
  induction levels generalizing ib with
  | zero => exact h.throw _
  | succ levels ih => exact h.chain ih maxChain ib

theorem forM (h : w.Relates R w') {α : Type} {l : List α} {f : α → EStateM Error σ Unit}
    {g : α → EStateM Error τ Unit} (hf : ∀ a, R (f a) (g a)) : R (l.forM f) (l.forM g) := by
  induction l with
  | nil => exact h.pure ()
  | cons a l ih => exact h.bind (hf a) fun _ => ih

theorem run (h : w.Relates R w') (ibs : List IndirectBuffer) : R (w.run ibs) (w'.run ibs) :=
  h.forM fun (ib, _) => h.bind (h.emit _) fun _ => h.buffer maxDepth ib

end Relates

end CaptureForest.Walk
