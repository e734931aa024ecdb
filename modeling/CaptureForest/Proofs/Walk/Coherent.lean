import CaptureForest.Proofs.Memory.Reader
import CaptureForest.Proofs.Walk.Position

/-! # What is true of every position

The positions that a walk comes to are `Coherent`: all open buffers run on one engine, the next
packet of a run does not stand before its buffer, and only called buffers lie too deep. -/

namespace CaptureForest.Walk

/-- The buffers of a run, the latest first. -/
def OpenRun.visits (r : OpenRun) : List Visit := r.latest :: r.earlier

/-- The open buffers, the innermost first. -/
def Position.visits (p : Position) : List Visit := p.runs.flatMap OpenRun.visits

variable {m : Reader} {submit : Nat} {ibs : List IndirectBuffer} {p q : Position} {t : List Step}

/-- What a walk of the buffers `ibs` knows of the open buffers at each of its positions. -/
structure Position.Coherent (ibs : List IndirectBuffer) (p : Position) : Prop where
  index_lt : ∀ v ∈ p.visits, v.ibIndex < ibs.length
  engine : ∀ v ∈ p.visits, ∀ w ∈ p.visits, v.ib.constantEngine = w.ib.constantEngine
  le_next : ∀ r ∈ p.runs, r.latest.ib.va ≤ r.next
  leads : ∀ {ib kind}, p.pending = .ok (some (ib, kind)) → p.runs.length ≤ maxDepth ∧
    ∀ v ∈ p.visits, v.ib.constantEngine = ib.constantEngine
  deep : ∀ {r rs}, p.runs = r :: rs → maxDepth ≤ rs.length → r.latest.kind = .call

/-- A packet leads into a buffer on the engine that it runs on itself. -/
theorem target_constantEngine {constantEngine : Bool} {va : Nat} {kind : PacketKind}
    {header : UInt32} {ib : IndirectBuffer} {ibKind : IbKind}
    (h : target m submit constantEngine va kind header = .ok (some (ib, ibKind))) :
    ib.constantEngine = constantEngine := by
  obtain ⟨-, h⟩ := target_eq_some h
  unfold IndirectBuffer.ofPacket at h
  split at h
  · cases h
  · split at h
    · cases hw : m.words submit (va + 4) targetWords with
      | error e => rw [hw] at h; cases h
      | ok words => rw [hw] at h; cases h; rfl
    · cases h

/-- A buffer is entered on the engine of the buffers that are open. -/
theorem Position.Coherent.enter (h : p.Coherent ibs) (visit : Visit)
    (hvisits : ∀ v ∈ q.visits, v = visit ∨ v ∈ p.visits) (hindex : visit.ibIndex < ibs.length)
    (hengine : ∀ v ∈ p.visits, v.ib.constantEngine = visit.ib.constantEngine)
    (hpending : q.pending = .ok none)
    (hruns : ∀ r ∈ q.runs, r ∈ p.runs ∨ r.next = r.latest.ib.va)
    (hdeep : ∀ {r rs}, q.runs = r :: rs → maxDepth ≤ rs.length → r.latest.kind = .call) :
    q.Coherent ibs where
  index_lt v hv := by
    rcases hvisits v hv with rfl | hv
    · exact hindex
    · exact h.index_lt v hv
  engine v hv w hw := by
    have hall : ∀ v ∈ q.visits, v.ib.constantEngine = visit.ib.constantEngine := fun v hv =>
      (hvisits v hv).elim (fun heq => by rw [heq]) (hengine v)
    exact (hall v hv).trans (hall w hw).symm
  le_next r hr := (hruns r hr).elim (h.le_next r) fun heq => Nat.le_of_eq heq.symm
  leads hleads := by rw [hpending] at hleads; cases hleads
  deep := hdeep

theorem Move.coherent {step : Step} (h : Move m submit ibs p step q) (hp : p.Coherent ibs) :
    q.Coherent ibs := by
  cases h with
  | @list ib hr _ hib =>
    refine hp.enter ⟨p.listed, ib, .normal, p.entered⟩ ?_ ?_ ?_ rfl ?_ ?_
    · simp [Position.visits, Position.openRun, OpenRun.visits, hr]
    · exact (List.getElem?_eq_some_iff.mp hib).1
    · simp [Position.visits, hr]
    · simp [Position.openRun, hr]
    · simp [Position.openRun, hr, maxDepth]
  | @call r rs ib hr hpend =>
    obtain ⟨-, hengine⟩ := hp.leads hpend
    refine hp.enter ⟨r.latest.ibIndex, ib, .call, p.entered⟩ ?_ ?_ hengine rfl ?_ ?_
    · simp [Position.visits, Position.openRun, OpenRun.visits]
    · exact hp.index_lt r.latest (by simp [Position.visits, hr, OpenRun.visits])
    · simp +contextual [Position.openRun]
    · simp [Position.openRun]
  | @chain r rs ib hr hpend =>
    obtain ⟨hdepth, hengine⟩ := hp.leads hpend
    refine hp.enter ⟨r.latest.ibIndex, ib, .chain, p.entered⟩ ?_ ?_ hengine rfl ?_ ?_
    · simp [Position.visits, Position.extendRun, OpenRun.visits, hr]
    · exact hp.index_lt r.latest (by simp [Position.visits, hr, OpenRun.visits])
    · simp only [Position.extendRun, hr, List.mem_cons]
      rintro o (rfl | ho)
      · exact .inr rfl
      · exact .inl (.inr ho)
    · intro o os hos hdeep
      cases hos
      rw [hr, List.length_cons] at hdepth
      omega
  | @packet r rs header hr _ hdepth _ hstop hlt =>
    have hvisits : Position.visits { p with
        runs := r.pass (.ofHeader header) header :: rs
        pending := target m submit r.latest.ib.constantEngine r.next (.ofHeader header) header } =
        p.visits := by
      simp [Position.visits, hr, OpenRun.visits, OpenRun.pass]
    have hmem : r.latest ∈ p.visits := by simp [Position.visits, hr, OpenRun.visits]
    have hle : r.latest.ib.va ≤ r.next := hp.le_next r (by simp [hr])
    have hnext := lt_nextAddress (PacketKind.ofHeader header) header hlt hstop
    rw [hr, List.length_cons] at hdepth
    exact {
      index_lt := by rw [hvisits]; exact hp.index_lt
      engine := by rw [hvisits]; exact hp.engine
      le_next := fun o ho => by
        rcases List.mem_cons.mp ho with rfl | ho
        · exact Nat.le_trans hle (Nat.le_of_lt hnext)
        · exact hp.le_next o (by rw [hr]; exact List.mem_cons_of_mem _ ho)
      leads := fun {ib kind} htarget => by
        rw [hvisits]
        refine ⟨hdepth, fun v hv => ?_⟩
        rw [target_constantEngine htarget]
        exact hp.engine v hv r.latest hmem
      deep := fun hos hdeep => by
        cases hos
        omega }
  | @leave r rs hr hpend hdepth =>
    have hvisits : ∀ v ∈ Position.visits { p with runs := rs }, v ∈ p.visits := by
      intro v hv
      rw [Position.visits, hr, List.flatMap_cons]
      exact List.mem_append_right _ hv
    rw [hr, List.length_cons] at hdepth
    exact {
      index_lt := fun v hv => hp.index_lt v (hvisits v hv)
      engine := fun v hv w hw => hp.engine v (hvisits v hv) w (hvisits w hw)
      le_next := fun o ho => hp.le_next o (by rw [hr]; exact List.mem_cons_of_mem _ ho)
      leads := fun hleads => by rw [hpend] at hleads; cases hleads
      deep := fun {o os} (hos : rs = o :: os) hdeep => by
        rw [hos, List.length_cons] at hdepth
        omega }

/-- What a packet leads to cannot be read for want of memory only. -/
theorem Path.pending_error {e : Error} (h : Path m submit ibs {} t p) (he : p.pending = .error e) :
    m.Misses submit e := by
  induction h with
  | nil => cases he
  | snoc _ move ih =>
    cases move with
    | list | call | chain => cases he
    | packet => exact IndirectBuffer.misses_of_ofPacket (target_eq_error he)
    | leave _ hpend => exact ih he

/-- A walk comes to coherent positions only. -/
theorem Path.coherent (h : Path m submit ibs {} t p) : p.Coherent ibs := by
  induction h with
  | nil => exact ⟨nofun, nofun, nofun, nofun, nofun⟩
  | snoc _ move ih => exact move.coherent ih

end CaptureForest.Walk
