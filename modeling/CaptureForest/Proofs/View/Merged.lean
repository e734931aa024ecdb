import CaptureForest.Proofs.View.Derived
import Mathlib.Data.List.DropRight
import Mathlib.Data.List.Induction
import Mathlib.Data.List.Nodup

/-! # What merged calls share

A call that does work shares what the calls without work just before it shared, and then what it
shared itself (`EdgeLists.shared_merged_of_mem`). -/

namespace CaptureForest

/-- The calls without work that stand at the end of some siblings. What they share is carried on to
the next sibling. -/
def trailingCalls (classify : Nat → CallClass) (siblings : List Nat) : List Nat :=
  siblings.rtakeWhile (classify · = .stateCall)

theorem trailingCalls_sublist {classify : Nat → CallClass} {siblings : List Nat} :
    (trailingCalls classify siblings).Sublist siblings :=
  (List.rtakeWhile_suffix _ _).sublist

theorem of_mem_trailingCalls {classify : Nat → CallClass} {siblings : List Nat} {a : Nat}
    (h : a ∈ trailingCalls classify siblings) : classify a = .stateCall := by
  unfold trailingCalls at h
  have hstate := List.mem_rtakeWhile_imp h
  exact of_decide_eq_true hstate

namespace EdgeLists

variable {g lists : EdgeLists} {classify : Nat → CallClass} {a node : Nat}

/-- What some calls share, one after the other. -/
def sharedBy (g : EdgeLists) (calls : List Nat) : List Nat :=
  calls.flatMap fun a => (g.shared a).toList

theorem sharedBy_append {calls : List Nat} :
    g.sharedBy (calls ++ [a]) = g.sharedBy calls ++ (g.shared a).toList := by
  simp [sharedBy]

theorem shared_setShared_self {children : Array Nat} (h : a < g.size) :
    (g.setShared a children).shared a = children := by
  unfold setShared shared
  rw [Array.getElem?_modify, if_pos rfl, Array.getElem?_eq_getElem h]
  rfl

/-! ## The visits of children -/

theorem size_visits (children : List Nat) (m : Merge) :
    (children.foldl (Merge.visit g classify) m).lists.size = m.lists.size := by
  induction children generalizing m with
  | nil => rfl
  | cons child children ih =>
    rw [List.foldl_cons, ih]
    unfold Merge.visit
    split
    · rfl
    · rfl
    · split
      · rfl
      · exact size_setShared

/-- The visit of a child changes what that child shares and nothing else. -/
theorem shared_visit_of_ne {child : Nat} {m : Merge} (h : child ≠ a) :
    (m.visit g classify child).lists.shared a = m.lists.shared a := by
  unfold Merge.visit
  split
  · rfl
  · rfl
  · split
    · rfl
    · exact shared_setShared_of_ne h

theorem shared_visits_of_not_mem {children : List Nat} (h : a ∉ children) (m : Merge) :
    (children.foldl (Merge.visit g classify) m).lists.shared a = m.lists.shared a := by
  induction children generalizing m with
  | nil => rfl
  | cons child children ih =>
    rw [List.mem_cons, not_or] at h
    rw [List.foldl_cons, ih h.2, shared_visit_of_ne (Ne.symm h.1)]

/-- What is carried behind some children comes from the calls without work at their end. -/
theorem carried_visits (children : List Nat) (lists : EdgeLists) :
    (children.foldl (Merge.visit g classify) { lists }).carried.toList =
      g.sharedBy (trailingCalls classify children) := by
  induction children using List.reverseRecOn with
  | nil => rfl
  | append_singleton children child ih =>
    rw [List.foldl_append, trailingCalls]
    by_cases hstate : classify child = .stateCall
    · rw [List.rtakeWhile_concat_pos _ _ _ (by simpa using hstate), sharedBy_append]
      simp only [List.foldl_cons, List.foldl_nil, Merge.visit, hstate, Array.toList_append, ih]
      rfl
    · rw [List.rtakeWhile_concat_neg _ _ _ (by simpa using hstate)]
      simp only [List.foldl_cons, List.foldl_nil, Merge.visit]
      cases hclass : classify child with
      | stateCall => exact absurd hclass hstate
      | noCall => rfl
      | eventCall =>
        dsimp only
        split
        · rename_i hempty
          rw [Array.isEmpty_iff.mp hempty]
          rfl
        · rfl

/-- A call that does work takes what is carried up to it. -/
theorem shared_visits_of_mem {before after : List Nat} (ha : classify a = .eventCall)
    (hbefore : a ∉ before) (hafter : a ∉ after) (hlt : a < lists.size)
    (hshared : lists.shared a = g.shared a) :
    (((before ++ a :: after).foldl (Merge.visit g classify) { lists }).lists.shared a).toList =
      g.sharedBy (trailingCalls classify before ++ [a]) := by
  rw [List.foldl_append, List.foldl_cons, shared_visits_of_not_mem hafter, sharedBy_append,
    ← carried_visits before lists]
  have hkept : (before.foldl (Merge.visit g classify) { lists }).lists.shared a = lists.shared a :=
    shared_visits_of_not_mem hbefore { lists }
  have hsize : (before.foldl (Merge.visit g classify) { lists }).lists.size = lists.size :=
    size_visits before { lists }
  generalize before.foldl (Merge.visit g classify) { lists } = m at hkept hsize
  unfold Merge.visit
  rw [ha]
  dsimp only
  split
  · rename_i hempty
    rw [hkept, hshared, Array.isEmpty_iff.mp hempty]
    rfl
  · rw [shared_setShared_self (hsize ▸ hlt), Array.toList_append]

/-! ## The merge of all nodes -/

theorem size_mergeNode : (g.mergeNode classify lists node).size = lists.size := by
  unfold mergeNode
  split
  · rfl
  · dsimp only
    rw [size_setOwned, ← Array.foldl_toList, size_visits]

theorem shared_mergeNode_of_not_mem (h : classify node = .stateCall ∨ a ∉ g.owned node) :
    (g.mergeNode classify lists node).shared a = lists.shared a := by
  unfold mergeNode
  split
  · rfl
  · rename_i hstate
    dsimp only
    rw [shared_setOwned, ← Array.foldl_toList,
      shared_visits_of_not_mem (fun hmem => h.resolve_left hstate (Array.mem_def.mpr hmem))]

theorem shared_mergeNodes_of_not_mem {nodes : List Nat}
    (h : ∀ node ∈ nodes, classify node = .stateCall ∨ a ∉ g.owned node) :
    (nodes.foldl (g.mergeNode classify) lists).shared a = lists.shared a := by
  induction nodes generalizing lists with
  | nil => rfl
  | cons node nodes ih =>
    rw [List.foldl_cons, ih fun n hn => h n (List.mem_cons_of_mem _ hn),
      shared_mergeNode_of_not_mem (h node List.mem_cons_self)]

theorem size_mergeNodes {nodes : List Nat} :
    (nodes.foldl (g.mergeNode classify) lists).size = lists.size := by
  induction nodes generalizing lists with
  | nil => rfl
  | cons node nodes ih => rw [List.foldl_cons, ih, size_mergeNode]

/-- What the calls with work share before anything is merged. -/
theorem shared_start (ha : classify a = .eventCall) :
    EdgeLists.shared (g.mapIdx fun node e =>
      if classify node = .stateCall then {} else { shared := e.shared }) a = g.shared a := by
  rw [shared, Array.getElem?_mapIdx, shared]
  cases g[a]? <;> simp [ha]

/-- A call that does work shares what the calls without work just before it shared, and what it shared
itself. -/
theorem shared_merged_of_mem {before after : List Nat} (ha : classify a = .eventCall)
    (hnode : classify node ≠ .stateCall) (hsplit : (g.owned node).toList = before ++ a :: after)
    (hnodup : (g.owned node).toList.Nodup) (honce : ∀ n, a ∈ g.owned n → n = node)
    (hlt : a < g.size) :
    ((g.merged classify).shared a).toList = g.sharedBy (trailingCalls classify before ++ [a]) := by
  have hmem : node ∈ List.range g.size :=
    List.mem_range.mpr (lt_of_mem_owned (c := a) (Array.mem_def.mpr (by simp [hsplit])))
  obtain ⟨earlier, later, hrange⟩ := List.append_of_mem hmem
  have hrest : ∀ n ∈ earlier ++ later, classify n = .stateCall ∨ a ∉ g.owned n := by
    intro n hn
    refine .inr fun hmem => ?_
    have hnd : (earlier ++ node :: later).Nodup := hrange ▸ List.nodup_range
    rw [honce n hmem] at hn
    exact (List.nodup_middle.mp hnd).notMem hn
  rw [hsplit] at hnodup
  obtain ⟨hnot, -⟩ := List.nodup_cons.mp (List.nodup_middle.mp hnodup)
  rw [List.mem_append, not_or] at hnot
  unfold merged
  dsimp only
  rw [hrange, List.foldl_append, List.foldl_cons,
    shared_mergeNodes_of_not_mem fun n hn => hrest n (List.mem_append_right _ hn)]
  rw [mergeNode, if_neg hnode]
  dsimp only
  rw [shared_setOwned, ← Array.foldl_toList, hsplit]
  refine shared_visits_of_mem ha hnot.1 hnot.2 ?_ ?_
  · rw [size_mergeNodes, Array.size_mapIdx]
    exact hlt
  · rw [shared_mergeNodes_of_not_mem fun n hn => hrest n (List.mem_append_left _ hn),
      shared_start ha]

/-- A call that does work and is owned by no node that stays shares what it shared before. -/
theorem shared_merged_of_not_mem (ha : classify a = .eventCall)
    (h : ∀ n, a ∈ g.owned n → classify n = .stateCall) :
    (g.merged classify).shared a = g.shared a := by
  unfold merged
  dsimp only
  rw [shared_mergeNodes_of_not_mem fun n _ => or_iff_not_imp_right.mpr fun hn => h n (not_not.mp hn),
    shared_start ha]

end EdgeLists

end CaptureForest
