import CaptureForest.Proofs.Hierarchy.Signals
import CaptureForest.Proofs.Pass.Mirror

/-! # The view of internal markers in a hierarchy

The views of events and of internal markers are the same forest (`Hierarchy.ofCapture_mirrored`), as
the two marker stacks and the edges of the two views are equal whatever signals have come. -/

namespace CaptureForest

namespace Pass

variable {p : Pass} {engines : List Engine}

/-- Other than its engines, a pass that has just started lists nothing. -/
theorem Started.owned_eq_nil (h : p.Started engines) {v : View} {n : Nat}
    (hne : ¬(v = .engine ∧ n = rootNode)) : p.owned v n = [] := by
  refine List.eq_nil_iff_forall_not_mem.mpr fun c hc => ?_
  obtain ⟨a, b, ha, hb, hab, -⟩ := h.sound.arranged.fits hc
  rcases h.kinds hb with rfl | rfl
  · exact View.not_owns_root hab
  · rcases h.kinds ha with rfl | rfl
    · refine hne ⟨?_, h.sound.arranged.root.mp ha⟩
      revert hab
      cases v <;> decide
    · revert hab
      cases v <;> decide

theorem Started.shared_eq_nil (h : p.Started engines) (v : View) (n : Nat) : p.shared v n = [] := by
  refine List.eq_nil_iff_forall_not_mem.mpr fun c hc => ?_
  rcases h.kinds (h.sound.arranged.shares hc) with hk | hk <;> cases hk

theorem Started.mirrored (h : p.Started engines) : p.Mirrored where
  owned n := by rw [h.owned_eq_nil (by simp), h.owned_eq_nil (by simp)]
  shared n := by rw [h.shared_eq_nil, h.shared_eq_nil]

theorem Reached.mirrored (h : p.Reached) : p.Mirrored :=
  h.induct Started.mirrored fun _ hc => hc.mirrored

end Pass

namespace Hierarchy

/-- Whatever signals have come, the two marker stacks are equal and so are the edges of the two views
that nest events in markers. In the end the two views have the same children, the same shared
children and the same owners. -/
theorem ofCapture_mirrored (o : Options) (c : Capture) :
    (∀ t p, Pass.After o c t p →
      p.internalMarkers = p.markers ∧ p.edges.rgp = p.edges.allEvent) ∧
    ∀ h, ofCapture o c = .ok h → h.forest .rgp = h.forest .allEvent := by
  have hedges {t : List Signal} {p : Pass} (hp : Pass.After o c t p) :
      p.edges.rgp = p.edges.allEvent :=
    hp.reached.mirrored.edges_eq hp.sound.sized
  refine ⟨fun t p hp => ⟨hp.sound.stacked.aligned, hedges hp⟩, fun h hb => ?_⟩
  obtain ⟨q, hq, -, hbakes⟩ := ofCapture_after hb
  have hrgp : (h.forest .rgp).Bakes (q.edges.rgp) := hbakes .rgp
  rw [hedges hq] at hrgp
  exact hrgp.unique (hbakes .allEvent)

/-- A draw in a label, when the draw has been executed and in the end. -/
theorem ofCapture_mirrored_label :
    let c : Capture := {
      submits := [{ engine := .universal, queue := .universal, ibs := [{ va := 0, size := 5 }] }]
      memory := .flat (Words.toBytes #[Header.ofOpcode Opcode.nop 1,
        CallMarker.word .beginDebugUtilsLabel, Header.ofOpcode Opcode.nop 1,
        CallMarker.word .draw, Header.ofOpcode Opcode.drawAuto 0]) }
    let t := c.signals.take 5
    ∃ p h, Pass.After {} c t p ∧ ofCapture {} c = .ok h ∧ p.markers = [11, 9] ∧
      p.internalMarkers = p.markers ∧ p.edges.rgp = p.edges.allEvent ∧
      (h.forest .allEvent).children 11 = #[13] ∧ h.forest .rgp = h.forest .allEvent := by
  intro c t
  have hrun : Succeeds (Pass.heard {} c t) {} fun _ p => p.markers = [11, 9] := by decide +kernel
  have hchildren : ∃ h, ofCapture {} c = .ok h ∧
      (h.forest .allEvent).children 11 = #[13] := by decide +kernel
  obtain ⟨_, p, hp, hmarkers⟩ := hrun.exists_ok
  obtain ⟨h, hb, hchildren⟩ := hchildren
  have hafter : Pass.After {} c t p := ⟨List.take_prefix _ _, hp⟩
  obtain ⟨hstates, hend⟩ := ofCapture_mirrored {} c
  obtain ⟨hstacks, hedges⟩ := hstates t p hafter
  exact ⟨p, h, hafter, hb, hmarkers, hstacks, hedges, hchildren, hend h hb⟩

end Hierarchy

end CaptureForest
