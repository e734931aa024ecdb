import CaptureForest.Proofs.Hierarchy.Lockstep
import CaptureForest.Proofs.Hierarchy.Sharing

/-! # Hierarchies in other numbers

Passes that are equal but for their numbers become hierarchies that are equal but for their numbers.
The views of calls are made when a pass is finished, from the view of all events, and they come out
alike as whether a node is left out or merged does not depend on its number. -/

namespace CaptureForest

variable {R : Renaming} {n m : Nat}

namespace Pass.Renames

variable {p p' : Pass}

theorem isNoCall_eq (h : p.Renames R p') (n : Nat) :
    isNoCall p'.nodes (R n) = isNoCall p.nodes n := by
  unfold isNoCall
  rw [h.nodes]

theorem callClass_eq (h : p.Renames R p') (n : Nat) :
    callClass p'.nodes (R n) = callClass p.nodes n := by
  unfold callClass Nodes.aux?
  rw [h.nodes]

/-- What is owned in the view of calls, which is made from that of all events. -/
theorem owned_vulkanCall (h : p.Renames R p')
    (hexempt : ∀ k, p.nodes.kind? n = some k → R.exempt .allEvent k = false) :
    ((p'.allEdges.get .vulkanCall).owned (R n)).toList =
      ((p.allEdges.get .vulkanCall).owned n).toList.map R := by
  have hedges (q : Pass) :
      q.allEdges.get .vulkanCall = q.edges.allEvent.without (isNoCall q.nodes) := rfl
  have howned : (p'.edges.allEvent.owned (R n)).toList =
      (p.edges.allEvent.owned n).toList.map R := h.owned (v := .allEvent) hexempt
  rw [hedges, hedges, EdgeLists.owned_without, EdgeLists.owned_without, h.isNoCall_eq, howned,
    List.filter_map, apply_ite (List.map R)]
  congr 2
  exact List.filter_congr fun c _ => congrArg Bool.not (h.isNoCall_eq c)

theorem owned_allEdges (h : p.Renames R p') {v : View}
    (hexempt : ∀ k, p.nodes.kind? n = some k → R.exempt (source v) k = false) :
    ((p'.allEdges.get v).owned (R n)).toList = ((p.allEdges.get v).owned n).toList.map R := by
  cases v with
  | engine | submit | allEvent | rgp => exact h.owned hexempt
  | vulkanCall => exact h.owned_vulkanCall hexempt
  | vulkanEvent =>
    have hmerged (q : Pass) (n : Nat) : ((q.allEdges.get .vulkanEvent).owned n).toList =
        if callClass q.nodes n = .stateCall then [] else
          ((q.allEdges.get .vulkanCall).owned n).toList.filter (callClass q.nodes · ≠ .stateCall) :=
      (EdgeLists.merged_spec (q.allEdges.get .vulkanCall) (callClass q.nodes)).2.2 n
    rw [hmerged, hmerged, h.callClass_eq, h.owned_vulkanCall hexempt, List.filter_map,
      apply_ite (List.map R)]
    congr 2
    exact List.filter_congr fun c _ => by rw [Function.comp_apply, h.callClass_eq]

/-- A node without a number in the one pass owns nothing in the other, in any view. -/
theorem bare_allEdges (h : p.Renames R p') (hm : ∀ n, R n ≠ m) (v : View) :
    (p'.allEdges.get v).owned m = #[] := by
  refine Array.eq_empty_iff_forall_not_mem.mpr fun c hc => ?_
  have hmem := mem_owned_of_allEdges hc
  rw [(h.bare hm (source v)).1] at hmem
  cases hmem

end Pass.Renames

namespace Hierarchy

variable {p p' : Pass} {h h' : Hierarchy} {v : View}

theorem children_renamed (hrenames : p.Renames R p') (hp : p.Becomes h) (hp' : p'.Becomes h')
    (hexempt : ∀ k, p.nodes.kind? n = some k → R.exempt (Pass.source v) k = false) :
    ((h'.forest v).children (R n)).toList = ((h.forest v).children n).toList.map R := by
  rw [(hp'.forests v).children, (hp.forests v).children]
  exact hrenames.owned_allEdges hexempt

theorem children_bare (hrenames : p.Renames R p') (hp' : p'.Becomes h') (hm : ∀ n, R n ≠ m) :
    (h'.forest v).children m = #[] := by
  rw [(hp'.forests v).children]
  exact hrenames.bare_allEdges hm v

section

variable (hrenames : p.Renames R p') (hp : p.Becomes h) (hp' : p'.Becomes h')
  (hcalls : ∀ k, R.exempt .allEvent k = false)

include hrenames hp hp' hcalls

theorem parent?_vulkanCall_renamed (n : Nat) : (h'.forest .vulkanCall).parent? (R n) =
    ((h.forest .vulkanCall).parent? n).map R := by
  have hchildren (a : Nat) := children_renamed (v := .vulkanCall) (n := a) hrenames hp hp'
    fun k _ => hcalls k
  refine Option.ext fun m => ?_
  rw [parent?_iff (hp'.forests .vulkanCall), Option.map_eq_some_iff]
  constructor
  · intro hmem
    by_cases hm : ∀ a, R a ≠ m
    · rw [children_bare hrenames hp' hm] at hmem
      exact absurd hmem (Array.not_mem_empty _)
    · obtain ⟨a, rfl⟩ := not_forall_not.mp hm
      rw [Array.mem_def, hchildren, List.mem_map_of_injective R.inj] at hmem
      exact ⟨a, (parent?_iff (hp.forests .vulkanCall)).mpr (Array.mem_def.mpr hmem), rfl⟩
  · rintro ⟨a, ha, rfl⟩
    rw [Array.mem_def, hchildren, List.mem_map_of_injective R.inj]
    exact Array.mem_def.mp ((parent?_iff (hp.forests .vulkanCall)).mp ha)

/-- The calls whose packets come together are the same. -/
theorem callsOf_renamed (n : Nat) : h'.callsOf (R n) = (h.callsOf n).map R := by
  have hclass (a : Nat) : Pass.callClass h'.nodes (R a) = Pass.callClass h.nodes a := by
    rw [hp.nodes, hp'.nodes, hrenames.callClass_eq]
  have hchildren (a : Nat) := children_renamed (v := .vulkanCall) (n := a) hrenames hp hp'
    fun k _ => hcalls k
  have htrailing (l : List Nat) : trailingCalls (Pass.callClass h'.nodes) (l.map R) =
      (trailingCalls (Pass.callClass h.nodes) l).map R := by
    unfold trailingCalls List.rtakeWhile
    rw [← List.map_reverse, List.takeWhile_map, ← List.map_reverse]
    simp only [Function.comp_def, hclass]
  have hbefore (l : List Nat) : (l.map R).takeWhile (· ≠ R n) = (l.takeWhile (· ≠ n)).map R := by
    rw [List.takeWhile_map]
    simp only [Function.comp_def, ne_eq, R.inj.eq_iff]
  unfold callsOf
  rw [hclass, parent?_vulkanCall_renamed hrenames hp hp' hcalls]
  cases Pass.callClass h.nodes n with
  | stateCall => rfl
  | noCall => rfl
  | eventCall =>
    cases (h.forest .vulkanCall).parent? n with
    | none => rfl
    | some owner =>
      dsimp only [Option.map_some]
      rw [hchildren, hbefore, htrailing, List.map_append]
      rfl

theorem shared_renamed (hsound : p.Sound) (hsound' : p'.Sound) (hreached : p.Reached)
    (hreached' : p'.Reached) (v : View) (n : Nat) :
    h'.shared v (R n) = (h.shared v n).map R := by
  have hcall (a : Nat) : h'.shared .vulkanCall (R a) = (h.shared .vulkanCall a).map R := by
    rw [shared_vulkanCall hp.forests, shared_vulkanCall hp'.forests, hrenames.isNoCall_eq,
      hrenames.shared, apply_ite (List.map R), List.map_nil]
  have hpackets (hv : v ∈ View.withPackets) : h'.shared v (R n) = (h.shared v n).map R := by
    rw [shared_eq hp.forests hv, shared_eq hp'.forests hv, hrenames.shared]
  cases v with
  | engine | submit | allEvent | rgp => exact hpackets (by decide)
  | vulkanCall => exact hcall n
  | vulkanEvent =>
    rw [shared_vulkanEvent hreached hsound hp.nodes hp.forests,
      shared_vulkanEvent hreached' hsound' hp'.nodes hp'.forests,
      callsOf_renamed hrenames hp hp' hcalls, List.flatMap_map, List.map_flatMap]
    exact List.flatMap_congr fun a _ => hcall a

end

/-- A node without a number in the one pass shares nothing in the other, unless it is a call. -/
theorem shared_bare (hrenames : p.Renames R p') (hp' : p'.Becomes h') (hm : ∀ n, R n ≠ m)
    (hclass : Pass.callClass h'.nodes m = .noCall) : h'.shared v m = [] := by
  have hnone (v : View) : p'.shared v m = [] := (hrenames.bare hm v).2
  have hcall : h'.shared .vulkanCall m = [] := by
    rw [shared_vulkanCall hp'.forests, hnone, ite_self]
  have hpackets (hv : v ∈ View.withPackets) : h'.shared v m = [] := by
    rw [shared_eq hp'.forests hv, hnone]
  cases v with
  | engine | submit | allEvent | rgp => exact hpackets (by decide)
  | vulkanCall => exact hcall
  | vulkanEvent =>
    rw [hp'.nodes] at hclass
    have hmerged : (p'.allEdges.get .vulkanEvent).shared m =
        (p'.allEdges.get .vulkanCall).shared m :=
      (EdgeLists.shared_merged (by simp [hclass])).trans (if_neg (by simp [hclass]))
    rw [shared, (hp'.forests .vulkanEvent).shared, hmerged, ← (hp'.forests .vulkanCall).shared]
    exact hcall

end Hierarchy

end CaptureForest
