import CaptureForest.Proofs.View.Climb
import Mathlib.Data.List.Infix

/-! # Refused calls

All shared children are looked at before they are noted, so a call that is refused changes nothing
(`PackedEdit.addShared_leads`). Owned children are noted one by one. A call that is refused at one of
them leaves those in front of it with an owner that has no children
(`PackedForest.addChildren_refused`). If the owner is one of them, no climb from it ends. -/

namespace CaptureForest

namespace PackedForest

variable {s : PackedForest} {node child c : Nat} {taken children : List Nat} {cause : Violation}

/-! ## Noting owners -/

/-- What is left if `node` becomes the owner of some nodes, one after the other. -/
def claimed (s : PackedForest) (node : Nat) (taken : List Nat) : PackedForest :=
  taken.zipIdx.foldl (fun s (child, rank) => s.setOwner child { node, rank }) s

@[simp]
theorem claimed_nil : s.claimed node [] = s := rfl

theorem claimed_concat : s.claimed node (taken ++ [child]) =
    (s.claimed node taken).setOwner child { node, rank := taken.length } := by
  simp [claimed, List.zipIdx_append]

/-- What no owner changes is the same for all that a node takes. -/
theorem claimed_keeps {α : Type} (q : PackedForest → α)
    (hq : ∀ s child o, q (setOwner s child o) = q s) : q (s.claimed node taken) = q s := by
  induction taken using List.reverseRecOn with
  | nil => rfl
  | append_singleton taken child ih => rw [claimed_concat, hq, ih]

@[simp]
theorem ownedLists_claimed : (s.claimed node taken).ownedLists = s.ownedLists :=
  claimed_keeps ownedLists fun _ _ _ => rfl

@[simp]
theorem sharedLists_claimed : (s.claimed node taken).sharedLists = s.sharedLists :=
  claimed_keeps sharedLists fun _ _ _ => rfl

@[simp]
theorem size_claimed : (s.claimed node taken).size = s.size :=
  claimed_keeps size fun _ _ _ => size_setOwner

@[simp]
theorem size_ranks_claimed : (s.claimed node taken).ranks.size = s.ranks.size :=
  claimed_keeps (fun s => s.ranks.size) fun _ _ _ => Array.size_setIfInBounds

theorem parent?_claimed (node : Nat) (h : ∀ c ∈ taken, c < s.size) (c : Nat) :
    (s.claimed node taken).parent? c = if c ∈ taken then some node else s.parent? c := by
  induction taken using List.reverseRecOn with
  | nil => simp
  | append_singleton taken child ih =>
    have hchild : child < (s.claimed node taken).size := by
      rw [size_claimed]
      exact h child (by simp)
    rw [claimed_concat, parent?_setOwner hchild, ih fun c hc => h c (List.mem_append_left _ hc)]
    by_cases hc : c = child <;> simp [hc]

/-- Each node has the rank at which it stands among those that the owner takes. -/
theorem rank?_claimed (h : ∀ c ∈ taken, c < s.ranks.size) (hnodup : taken.Nodup) (c : Nat) :
    (s.claimed node taken).rank? c =
      if c ∈ taken then some (taken.idxOf c) else s.rank? c := by
  induction taken using List.reverseRecOn with
  | nil => simp
  | append_singleton taken child ih =>
    have hchild : child < (s.claimed node taken).ranks.size := by
      rw [size_ranks_claimed]
      exact h child (by simp)
    have hnew : child ∉ taken := fun hmem =>
      (List.nodup_append.mp hnodup).2.2 child hmem child (List.mem_singleton_self _) rfl
    rw [claimed_concat, rank?_setOwner hchild,
      ih (fun c hc => h c (List.mem_append_left _ hc)) (List.nodup_append.mp hnodup).1]
    by_cases hc : c = child
    · subst hc
      simp [List.idxOf_append, hnew]
    · by_cases hmem : c ∈ taken <;> simp [hc, hmem, List.idxOf_append]

/-! ## Causes -/

/-- The node has no children yet, and the others are nodes without an owner. -/
structure Claimable (s : PackedForest) (node : Nat) (taken : List Nat) : Prop where
  inside : node < s.size
  empty : s.numChildren node = 0
  free : ∀ c ∈ taken, c < s.size ∧ s.parent? c = none
  nodup : taken.Nodup

/-- The children cannot be given to the node for the cause named, which is found behind those that
it takes. -/
inductive Refuses (s : PackedForest) (node : Nat) (children : List Nat) :
    (taken : List Nat) → (cause : Violation) → Prop
  | noNode : s.size ≤ node → Refuses s node children [] (.nodeOutOfRange node s.size)
  | hasChildren : node < s.size → s.numChildren node ≠ 0 →
    Refuses s node children [] (.alreadyHasChildren node)
  | noChild {child : Nat} {taken rest : List Nat} :
    s.Claimable node taken → children = taken ++ child :: rest → s.size ≤ child →
    Refuses s node children taken (.nodeOutOfRange child s.size)
  | owned {child owner : Nat} {taken rest : List Nat} :
    s.Claimable node taken → children = taken ++ child :: rest → s.parent? child = some owner →
    Refuses s node children taken (.alreadyOwned child owner node)
  | twice {child : Nat} {taken rest : List Nat} :
    s.Claimable node taken → children = taken ++ child :: rest → child ∈ taken →
    Refuses s node children taken (.alreadyOwned child node node)

theorem Refuses.claimable (h : s.Refuses node children taken cause) (hne : taken ≠ []) :
    s.Claimable node taken := by
  cases h with
  | noNode | hasChildren => exact absurd rfl hne
  | noChild h | owned h | twice h => exact h

end PackedForest

/-! ## What calls come to -/

namespace PackedEdit

open PackedForest

variable {s : PackedForest} {node child : Nat} {taken rest : List Nat}

theorem checkNode_leads (s : PackedForest) (node : Nat) :
    Leads (checkNode node) s (fun _ s' => s = s' ∧ node < s.size)
      fun cause s' => s = s' ∧ s.size ≤ node ∧ cause = .nodeOutOfRange node s.size := by
  unfold Leads checkNode
  by_cases hnode : node < s.size
  · rw [if_pos hnode]
    exact ⟨rfl, hnode⟩
  · rw [if_neg hnode]
    exact ⟨rfl, Nat.le_of_not_lt hnode, rfl⟩

/-- The next child is taken if it is a node without an owner that was not taken before. -/
theorem claim_leads (h : s.Claimable node taken) :
    Leads (claim node child taken.length) (s.claimed node taken)
      (fun _ s' => s.Claimable node (taken ++ [child]) ∧ s' = s.claimed node (taken ++ [child]))
      fun cause s' => s.Refuses node (taken ++ child :: rest) taken cause ∧
        s' = s.claimed node taken := by
  have hparent := parent?_claimed node (fun c hc => (h.free c hc).1) child
  unfold Leads claim
  rw [size_claimed, hparent]
  by_cases hchild : child < s.size
  · rw [if_pos hchild]
    by_cases hmem : child ∈ taken
    · rw [if_pos hmem]
      exact ⟨.twice h rfl hmem, rfl⟩
    · rw [if_neg hmem]
      cases howner : s.parent? child with
      | some owner => exact ⟨.owned h rfl howner, rfl⟩
      | none =>
        refine ⟨⟨h.inside, h.empty, fun c hc => ?_, ?_⟩, claimed_concat.symm⟩
        · rcases List.mem_append.mp hc with hc | hc
          · exact h.free c hc
          · rw [List.mem_singleton.mp hc]
            exact ⟨hchild, howner⟩
        · rw [← List.concat_eq_append, List.nodup_concat]
          exact ⟨hmem, h.nodup⟩
  · rw [if_neg hchild]
    exact ⟨.noChild h rfl (Nat.le_of_not_lt hchild), rfl⟩

theorem claims_leads (hnode : node < s.size) (hempty : s.numChildren node = 0)
    (children : List Nat) :
    Leads (children.zipIdx.forM fun (child, rank) => claim node child rank) s
      (fun _ s' => s' = s.claimed node children)
      fun cause s' => ∃ taken, s.Refuses node children taken cause ∧
        s' = s.claimed node taken := by
  refine (Leads.forM (I := fun done s' => ∃ taken, done = taken.zipIdx ∧ s.Claimable node taken ∧
    s' = s.claimed node taken) ⟨[], rfl, ⟨hnode, hempty, nofun, .nil⟩, rfl⟩ ?_).imp ?_
  · rintro _ ⟨child, rank⟩ rest _ hsplit ⟨taken, rfl, h, rfl⟩
    obtain ⟨front, back, rfl, hfront, hback⟩ := List.zipIdx_eq_append_iff.mp hsplit
    obtain rfl : taken = front := by
      rw [← List.zipIdx_map_fst 0 taken, hfront, List.zipIdx_map_fst]
    obtain ⟨_, back', rfl, heq, -⟩ := List.zipIdx_eq_cons_iff.mp hback.symm
    cases heq
    rw [Nat.zero_add]
    refine (claim_leads h).mono ?_ fun cause s' hcause => ⟨taken, hcause⟩
    rintro _ _ ⟨h', rfl⟩
    exact ⟨_, by simp [List.zipIdx_append], h', rfl⟩
  · rintro _ _ ⟨taken, heq, -, rfl⟩
    rw [← List.zipIdx_map_fst 0 children, heq, List.zipIdx_map_fst]

/-- A call that is refused keeps the children in front of the one that it is refused for. -/
theorem addChildren_leads (s : PackedForest) (node : Nat) (children : Array Nat) :
    Leads (addChildren node children) s
      (fun _ s' => s' = { s.claimed node children.toList with
        ownedLists := s.ownedLists.put node children })
      fun cause s' => ∃ taken, s.Refuses node children.toList taken cause ∧
        s' = s.claimed node taken := by
  unfold addChildren
  refine leads_bind.mpr ((checkNode_leads s node).mono ?_ ?_)
  · rintro _ _ ⟨rfl, hnode⟩
    by_cases hempty : s.numChildren node = 0
    · simp only [leads_bind, leads_get, hempty, if_true, leads_modify]
      refine (claims_leads hnode hempty children.toList).imp ?_
      rintro _ _ rfl
      rw [ownedLists_claimed]
    · simp only [leads_bind, leads_get, hempty, if_false, leads_throw]
      exact ⟨[], .hasChildren hnode hempty, rfl⟩
  · rintro _ _ ⟨rfl, hnode, rfl⟩
    exact ⟨[], .noNode hnode, rfl⟩

/-- A call that is refused changes nothing. -/
theorem addShared_leads (s : PackedForest) (node : Nat) (children : Array Nat) :
    Leads (addShared node children) s
      (fun _ s' => s' = { s with sharedLists := s.sharedLists.put node children })
      fun _ s' => s' = s := by
  unfold addShared
  refine leads_bind.mpr ((checkNode_leads s node).mono ?_ ?_)
  · rintro _ _ ⟨rfl, -⟩
    by_cases hempty : s.numSharedChildren node = 0
    · simp only [leads_bind, leads_get, hempty, if_true]
      cases children.find? (s.size ≤ ·) with
      | some bad => exact rfl
      | none => exact rfl
    · simp only [leads_bind, leads_get, hempty, if_false, leads_throw]
  · rintro _ _ ⟨rfl, -⟩
    rfl

end PackedEdit

namespace PackedForest

variable {s : PackedForest} {node ups : Nat} {answer : Option Nat} {last : ClimbTurn}

/-- There is a rank for each node, whatever calls are made and refused. -/
theorem size_ranks_stateAfterAll (k : Nat) (calls : List ForestCall) :
    (stateAfterAll ForestCall.onPacked calls (ofNodes k)).ranks.size =
      (stateAfterAll ForestCall.onPacked calls (ofNodes k)).size := by
  refine stateAfterAll_induct (P := fun s : PackedForest => s.ranks.size = s.size)
    (Array.size_replicate.trans Array.size_replicate.symm) fun call s hs => ?_
  cases call with
  | restart numNodes => exact Array.size_replicate.trans Array.size_replicate.symm
  | addChildren node children =>
    refine (PackedEdit.addChildren_leads s node children).mono ?_ ?_
    · rintro _ _ rfl
      exact size_ranks_claimed.trans (hs.trans size_claimed.symm)
    · rintro _ _ ⟨_, -, rfl⟩
      exact size_ranks_claimed.trans (hs.trans size_claimed.symm)
  | addShared node children =>
    refine (PackedEdit.addShared_leads s node children).mono ?_ ?_
    · rintro _ _ rfl
      exact hs
    · rintro _ _ rfl
      exact hs

/-- A climb that goes from a node to the same node does not end. -/
theorem not_climbs_of_up (hup : s.climbTurn node = .up node) : ¬s.Climbs ups node last := by
  intro h
  generalize hn : node = n at h
  induction h with
  | stop hstop =>
    subst hn
    exact hstop node hup
  | up hup' _ ih =>
    subst hn
    cases hup.symm.trans hup'
    exact ih rfl

theorem children_eq_empty (h : s.numChildren node = 0) : s.children node = #[] := by
  unfold children PackedLists.list
  unfold numChildren PackedLists.count at h
  cases hspan : s.ownedLists.spans[node]? with
  | none => rfl
  | some span =>
    rw [hspan] at h
    have hcount : span.count = 0 := h
    simp [hcount]

/-- A node that owns itself, but has no children, has no way to the node behind it. -/
theorem Claimable.not_next {taken : List Nat} (h : s.Claimable node taken)
    (hranks : s.ranks.size = s.size) (hmem : node ∈ taken) (hroot : node ≠ rootNode) :
    ¬(s.claimed node taken).Next node ups answer := by
  have hempty : (s.claimed node taken).children node = #[] := by
    refine children_eq_empty ?_
    rw [numChildren, ownedLists_claimed]
    exact h.empty
  have hnone (r : Nat) : (s.claimed node taken).child? node r = none := by
    rw [child?, hempty]
    rfl
  have hup : (s.claimed node taken).climbTurn node = .up node := by
    refine climbTurn_eq_up.mpr ⟨hroot, ?_, taken.idxOf node, ?_, hnone _⟩
    · rw [parent?_claimed node fun c hc => (h.free c hc).1, if_pos hmem]
    · rw [rank?_claimed (fun c hc => hranks ▸ (h.free c hc).1) h.nodup, if_pos hmem]
  intro hnext
  cases hnext with
  | child hfirst => cases (hnone 0).symm.trans hfirst
  | climb _ hclimbs => exact not_climbs_of_up hup hclimbs

/-- What a call leaves that gives children to a node and is refused, whatever calls were made and
refused before. The children in front of the one for which it is refused have got the node as their
owner, and their places as ranks; nothing else is changed. So all is as it was if and only if none was
in front. The lists are as they were: the owner has no children. If it is its own owner now, and not
the root, the search for the node behind it does not end. -/
theorem addChildren_refused (k : Nat) (calls : List ForestCall) (node : Nat) (children : Array Nat)
    (cause : Violation) (s s' : PackedForest)
    (hs : stateAfterAll ForestCall.onPacked calls (ofNodes k) = s)
    (h : (PackedEdit.addChildren node children).run s = .error cause s') :
    ∃ taken, s.Refuses node children.toList taken cause ∧
      (∀ c, s'.parent? c = if c ∈ taken then some node else s.parent? c) ∧
      (∀ c, s'.rank? c = if c ∈ taken then some (taken.idxOf c) else s.rank? c) ∧
      s'.size = s.size ∧ s'.ownedLists = s.ownedLists ∧ s'.sharedLists = s.sharedLists ∧
      (s' = s ↔ taken = []) ∧
      (taken ≠ [] → s'.children node = #[]) ∧
      (node ∈ taken → node ≠ rootNode → ∀ ups answer, ¬s'.Next node ups answer) := by
  obtain ⟨taken, hrefuses, rfl⟩ := (PackedEdit.addChildren_leads s node children).of_error h
  have hranks : s.ranks.size = s.size := hs ▸ size_ranks_stateAfterAll k calls
  have hfree (c : Nat) (hc : c ∈ taken) : c < s.size ∧ s.parent? c = none :=
    (hrefuses.claimable (List.ne_nil_of_mem hc)).free c hc
  have hparent := parent?_claimed node fun c hc => (hfree c hc).1
  refine ⟨taken, hrefuses, hparent, ?_, size_claimed, ownedLists_claimed, sharedLists_claimed,
    ⟨fun hsame => ?_, ?_⟩, fun hne => ?_, fun hmem hroot _ _ => ?_⟩
  · refine rank?_claimed (fun c hc => hranks ▸ (hfree c hc).1) ?_
    rcases eq_or_ne taken [] with rfl | hne
    · exact .nil
    · exact (hrefuses.claimable hne).nodup
  · refine List.eq_nil_iff_forall_not_mem.mpr fun c hc => ?_
    have howner := hparent c
    rw [hsame, if_pos hc, (hfree c hc).2] at howner
    cases howner
  · rintro rfl
    rfl
  · refine children_eq_empty ?_
    rw [numChildren, ownedLists_claimed]
    exact (hrefuses.claimable hne).empty
  · exact (hrefuses.claimable (List.ne_nil_of_mem hmem)).not_next hranks hmem hroot

/-- Behind another call that was refused, node 1 takes node 2 and itself, and is refused when it is to
take itself again. -/
theorem addChildren_refused_itself :
    let calls := [.restart 4, .addChildren 0 #[3], .addChildren 2 #[0, 3]]
    let s := stateAfterAll ForestCall.onPacked calls (ofNodes 0)
    ∃ s', (PackedEdit.addChildren 1 #[2, 1, 1]).run s = .error (.alreadyOwned 1 1 1) s' ∧
      s'.parent? 2 = some 1 ∧ s'.children 1 = #[] ∧ s' ≠ s ∧
      ∀ ups answer, ¬s'.Next 1 ups answer := by
  intro calls s
  have hrun : ∃ s', (PackedEdit.addChildren 1 #[2, 1, 1]).run s = .error (.alreadyOwned 1 1 1) s' ∧
      s'.parent? 2 = some 1 ∧ s'.parent? 1 = some 1 := ⟨_, rfl, rfl, rfl⟩
  obtain ⟨s', h, htwo, hone⟩ := hrun
  obtain ⟨taken, -, hparent, -, -, -, -, hsame, hempty, hendless⟩ :=
    addChildren_refused 0 calls 1 #[2, 1, 1] _ s s' rfl h
  have hmem : 1 ∈ taken := by
    have howner := hparent 1
    rw [hone] at howner
    by_contra hnot
    rw [if_neg hnot] at howner
    cases howner
  have hne := List.ne_nil_of_mem hmem
  exact ⟨s', h, htwo, hempty hne, mt hsame.mp hne, hendless hmem (by decide)⟩

/-- A call is refused as there is no node 5. Node 1, which stands in front of it, keeps node 0 as its
owner, and is not among its children. -/
theorem addChildren_refused_behind :
    (¬∀ cause s', (PackedEdit.addChildren 0 #[1, 5]).run (ofNodes 3) = .error cause s' →
        s' = ofNodes 3) ∧
      ∃ s', (PackedEdit.addChildren 0 #[1, 5]).run (ofNodes 3) = .error (.nodeOutOfRange 5 3) s' ∧
        s'.parent? 1 = some 0 ∧ s'.rank? 1 = some 0 ∧ s'.children 0 = #[] := by
  have hrun : ∃ s', (PackedEdit.addChildren 0 #[1, 5]).run (ofNodes 3) =
      .error (.nodeOutOfRange 5 3) s' ∧
      s'.parent? 1 = some 0 ∧ s'.rank? 1 = some 0 ∧ s'.children 0 = #[] := ⟨_, rfl, rfl, rfl, rfl⟩
  refine ⟨fun hclaim => ?_, hrun⟩
  obtain ⟨s', h, howner, -⟩ := hrun
  cases hclaim _ s' h
  cases howner

end PackedForest

end CaptureForest
