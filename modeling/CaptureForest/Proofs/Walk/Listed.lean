import CaptureForest.Proofs.Walk.Coherent
import Mathlib.Data.List.Basic

/-! # The listed buffer of a position

A walk goes through the buffers of its list one after the other. Wherever buffers are open, the
outermost is the one of the list that was entered last, and the others descend from it by calls and
chains: they have its place and run on its engine (`Path.descends`). -/

namespace CaptureForest.Walk

variable {m : Reader} {submit k : Nat} {ibs : List IndirectBuffer} {ib : IndirectBuffer}
  {p q : Position} {t : List Step}

/-- The open buffers descend from the buffer `ib` at place `k` of the list, the outermost of them. -/
structure Position.Descends (ibs : List IndirectBuffer) (p : Position) (k : Nat)
    (ib : IndirectBuffer) : Prop where
  listed : ibs[k]? = some ib
  outermost : ∃ number, p.visits.getLast? = some { ibIndex := k, ib, kind := .normal, number }
  index : ∀ v ∈ p.visits, v.ibIndex = k
  engine : ∀ v ∈ p.visits, v.ib.constantEngine = ib.constantEngine

namespace Position.Descends

/-- A buffer is opened inside of the others. -/
theorem push (h : p.Descends ibs k ib) {v : Visit} (hq : q.visits = v :: p.visits)
    (hindex : v.ibIndex = k) (hengine : v.ib.constantEngine = ib.constantEngine) :
    q.Descends ibs k ib where
  listed := h.listed
  outermost := by
    obtain ⟨number, hlast⟩ := h.outermost
    exact ⟨number, by rw [hq, List.getLast?_cons, hlast]; rfl⟩
  index := by
    rw [hq]
    exact List.forall_mem_cons.mpr ⟨hindex, h.index⟩
  engine := by
    rw [hq]
    exact List.forall_mem_cons.mpr ⟨hengine, h.engine⟩

/-- Inner buffers are closed, if any. -/
theorem pop (h : p.Descends ibs k ib) {inner : List Visit} (hp : p.visits = inner ++ q.visits)
    (hq : q.visits ≠ []) : q.Descends ibs k ib where
  listed := h.listed
  outermost := by
    rw [← List.getLast?_append_of_ne_nil inner hq, ← hp]
    exact h.outermost
  index v hv := h.index v (by rw [hp]; exact List.mem_append_right _ hv)
  engine v hv := h.engine v (by rw [hp]; exact List.mem_append_right _ hv)

end Position.Descends

theorem Move.descends {step : Step} (h : Move m submit ibs p step q) (hp : p.Coherent ibs)
    (hdescends : p.visits ≠ [] → ∃ k ib, p.Descends ibs k ib) (hq : q.visits ≠ []) :
    ∃ k ib, q.Descends ibs k ib := by
  cases h with
  | @list ib hr _ hib =>
    have hvisits : Position.visits { p.openRun p.listed ib .normal with listed := p.listed + 1 } =
        [⟨p.listed, ib, .normal, p.entered⟩] := by
      simp [Position.visits, Position.openRun, OpenRun.visits, hr]
    refine ⟨p.listed, ib, hib, ⟨p.entered, ?_⟩, ?_, ?_⟩
    · rw [hvisits]
      rfl
    · simp [hvisits]
    · simp [hvisits]
  | @call r rs ib hr hpend =>
    have hmem : r.latest ∈ p.visits := by simp [Position.visits, hr, OpenRun.visits]
    obtain ⟨k, listed, h⟩ := hdescends (List.ne_nil_of_mem hmem)
    have hengine := (hp.leads hpend).2 r.latest hmem
    exact ⟨k, listed, h.push rfl (h.index r.latest hmem)
      (hengine.symm.trans (h.engine r.latest hmem))⟩
  | @chain r rs ib hr hpend =>
    have hmem : r.latest ∈ p.visits := by simp [Position.visits, hr, OpenRun.visits]
    obtain ⟨k, listed, h⟩ := hdescends (List.ne_nil_of_mem hmem)
    have hengine := (hp.leads hpend).2 r.latest hmem
    have hvisits : (p.extendRun r rs ib).visits =
        ⟨r.latest.ibIndex, ib, .chain, p.entered⟩ :: p.visits := by
      simp [Position.visits, Position.extendRun, OpenRun.visits, hr]
    exact ⟨k, listed, h.push hvisits (h.index r.latest hmem)
      (hengine.symm.trans (h.engine r.latest hmem))⟩
  | @packet r rs header hr =>
    have hvisits : p.visits = [] ++ Position.visits { p with
        runs := r.pass (.ofHeader header) header :: rs
        pending := target m submit r.latest.ib.constantEngine r.next (.ofHeader header) header } := by
      simp [Position.visits, hr, OpenRun.visits, OpenRun.pass]
    obtain ⟨k, listed, h⟩ := hdescends (by rw [hvisits]; exact hq)
    exact ⟨k, listed, h.pop hvisits hq⟩
  | @leave r rs hr =>
    have hvisits : p.visits = r.visits ++ Position.visits { p with runs := rs } := by
      rw [Position.visits, hr, List.flatMap_cons]
      rfl
    obtain ⟨k, listed, h⟩ := hdescends (by simp [hvisits, OpenRun.visits])
    exact ⟨k, listed, h.pop hvisits hq⟩

/-- Wherever a walk has buffers open, they descend from one buffer of its list. -/
theorem Path.descends (h : Path m submit ibs {} t p) (hp : p.visits ≠ []) :
    ∃ k ib, p.Descends ibs k ib := by
  induction h with
  | nil => exact absurd rfl hp
  | snoc h move ih => exact move.descends h.coherent ih hp

end CaptureForest.Walk
