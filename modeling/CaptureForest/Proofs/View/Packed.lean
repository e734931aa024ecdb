import CaptureForest.Proofs.Agree
import CaptureForest.Proofs.View.Bake
import CaptureForest.Proofs.View.Preorder
import CaptureForest.View.Packed
import Mathlib.Algebra.BigOperators.Group.Finset.Piecewise

/-! # Packed forests

A packed forest stores the same answers as a forest (`PackedForest.Stores`), and each call does the
same to both. What is known of forests is therefore true of the packed form: its spans, its data,
its owners and its ranks fit to each other after every row of calls that succeeds
(`PackedForest.calls_fit`). -/

namespace CaptureForest

/-- The lengths of the lists in an array, summed up over the places. -/
theorem foldl_size_eq_sum {α : Type} (a : Array α) (list : α → Array Nat) :
    a.foldl (fun k p => k + (list p).size) 0 =
      ∑ n ∈ Finset.range a.size, ((a[n]?.map list).getD #[]).size := by
  rw [← Array.foldl_toList]
  simp only [← Array.getElem?_toList, ← Array.length_toList]
  induction a.toList using List.reverseRecOn with
  | nil => rfl
  | append_singleton places p ih =>
    rw [List.foldl_concat, List.length_append, List.length_singleton, Finset.sum_range_succ, ih]
    congr 1
    · refine Finset.sum_congr rfl fun n hn => ?_
      rw [List.getElem?_append_left (Finset.mem_range.mp hn)]
    · simp

namespace PackedLists

variable {l : PackedLists} {n m node : Nat} {list : Array Nat}

/-- There is a list for each of `n` nodes, all lie within the data, and nothing else is there. -/
structure Sound (l : PackedLists) (n : Nat) : Prop where
  size : l.spans.size = n
  inside : ∀ {node : Nat} {span : Span}, l.spans[node]? = some span →
    span.start + span.count ≤ l.data.size
  sum : ∑ node ∈ Finset.range n, l.count node = l.data.size

namespace Sound

theorem ofNodes (n : Nat) : (PackedLists.ofNodes n).Sound n := by
  have hcount (node : Nat) : (PackedLists.ofNodes n).count node = 0 := by
    rw [count, PackedLists.ofNodes, Array.getElem?_replicate]
    split <;> rfl
  refine ⟨Array.size_replicate, fun {node span} h => ?_, ?_⟩
  · rw [PackedLists.ofNodes, Array.getElem?_replicate] at h
    split at h
    · cases h
      exact Nat.le_refl 0
    · cases h
  · simp only [hcount, Finset.sum_const_zero]
    rfl

theorem size_list (h : l.Sound n) (node : Nat) : (l.list node).size = l.count node := by
  unfold PackedLists.list count
  cases hspan : l.spans[node]? with
  | none => rfl
  | some span =>
    have hinside := h.inside hspan
    simp only [Array.size_extract, Option.map_some, Option.getD_some]
    omega

theorem list_eq_empty_iff (h : l.Sound n) : l.list node = #[] ↔ l.count node = 0 := by
  rw [← h.size_list, Array.size_eq_zero_iff]

theorem list_put (h : l.Sound n) (hnode : node < n) :
    (l.put node list).list m = if m = node then list else l.list m := by
  have hlt : node < l.spans.size := h.size.symm ▸ hnode
  unfold PackedLists.list put
  dsimp only
  rw [Array.getElem?_setIfInBounds]
  by_cases hm : node = m
  · subst hm
    simp [hlt]
  · rw [if_neg hm, if_neg (Ne.symm hm)]
    cases hspan : l.spans[m]? with
    | none => rfl
    | some span =>
      have hinside := h.inside hspan
      simp [Array.extract_append, Nat.sub_eq_zero_of_le hinside]

theorem count_put (h : l.Sound n) (hnode : node < n) :
    (l.put node list).count m = if m = node then list.size else l.count m := by
  have hlt : node < l.spans.size := h.size.symm ▸ hnode
  unfold count put
  dsimp only
  rw [Array.getElem?_setIfInBounds]
  by_cases hm : node = m
  · subst hm
    simp [hlt]
  · rw [if_neg hm, if_neg (Ne.symm hm)]

/-- A list may be put where there was none. -/
theorem put (h : l.Sound n) (hnode : node < n) (hempty : l.count node = 0) :
    (l.put node list).Sound n := by
  refine ⟨by simp [PackedLists.put, h.size], fun {m span} hspan => ?_, ?_⟩
  · have hdata : (l.put node list).data.size = l.data.size + list.size := Array.size_append
    rw [hdata]
    rw [PackedLists.put, Array.getElem?_setIfInBounds] at hspan
    split at hspan
    · split at hspan
      · cases hspan
        exact Nat.le_refl _
      · cases hspan
    · exact Nat.le_trans (h.inside hspan) (Nat.le_add_right _ _)
  · have hcount (m : Nat) :
        (l.put node list).count m = l.count m + if node = m then list.size else 0 := by
      rw [h.count_put hnode]
      by_cases hm : node = m
      · subst hm
        simp [hempty]
      · simp [hm, Ne.symm hm]
    have hdata : (l.put node list).data.size = l.data.size + list.size := Array.size_append
    simp only [hcount]
    rw [Finset.sum_add_distrib, h.sum, Finset.sum_ite_eq, if_pos (Finset.mem_range.mpr hnode),
      hdata]

end Sound

end PackedLists

namespace PackedForest

variable {s : PackedForest} {f : Forest}

/-- The packed forest `s` stores what the forest `f` answers. -/
structure Stores (s : PackedForest) (f : Forest) : Prop where
  owned : s.ownedLists.Sound s.size
  shared : s.sharedLists.Sound s.size
  ranks : s.ranks.size = s.size
  paired : ∀ c, s.parent? c = none ↔ s.rank? c = none
  answers : f.Answers s.size s.children s.shared fun c o =>
    s.parent? c = some o.node ∧ s.rank? c = some o.rank

theorem join_setIfInBounds {a : Array (Option Nat)} {i j : Nat} {v : Option Nat} (hi : i < a.size) :
    (a.setIfInBounds i v)[j]?.join = if j = i then v else a[j]?.join := by
  rw [Array.getElem?_setIfInBounds]
  by_cases hj : i = j
  · subst hj
    simp [hi]
  · simp [hj, Ne.symm hj]

@[simp]
theorem size_setOwner {child : Nat} {o : Owner} : (s.setOwner child o).size = s.size :=
  Array.size_setIfInBounds

theorem parent?_setOwner {child : Nat} (hchild : child < s.size) (o : Owner) (c : Nat) :
    (s.setOwner child o).parent? c = if c = child then some o.node else s.parent? c :=
  join_setIfInBounds hchild

theorem rank?_setOwner {child : Nat} (hchild : child < s.ranks.size) (o : Owner) (c : Nat) :
    (s.setOwner child o).rank? c = if c = child then some o.rank else s.rank? c :=
  join_setIfInBounds hchild

namespace Stores

theorem ofNodes (n : Nat) : (PackedForest.ofNodes n).Stores (Forest.ofNodes n) := by
  have hsize : (PackedForest.ofNodes n).size = n := Array.size_replicate
  have hnone (c : Nat) : (Array.replicate n (none : Option Nat))[c]?.join = none := by
    rw [Array.getElem?_replicate]
    split <;> rfl
  have hlist (node : Nat) : (PackedLists.ofNodes n).list node = #[] := by
    rw [PackedLists.list, PackedLists.ofNodes, Array.getElem?_replicate]
    split <;> simp
  have hforest := Forest.Answers.ofNodes n
  refine ⟨by rw [hsize]; exact .ofNodes n, by rw [hsize]; exact .ofNodes n,
    Array.size_replicate.trans hsize.symm, fun c => iff_of_true (hnone c) (hnone c),
    hforest.size.trans hsize.symm, fun node => (hforest.children node).trans (hlist node).symm,
    fun node => (hforest.shared node).trans (hlist node).symm, @fun c o => hforest.owner.trans ?_⟩
  refine iff_of_false id fun h => ?_
  cases (hnone c).symm.trans h.1

theorem owner?_eq_some_iff (h : s.Stores f) {c : Nat} {o : Owner} :
    f.owner? c = some o ↔ s.parent? c = some o.node ∧ s.rank? c = some o.rank :=
  h.answers.owner

theorem owner?_eq_none_iff (h : s.Stores f) {c : Nat} :
    f.owner? c = none ↔ s.parent? c = none := by
  constructor
  · intro hnone
    refine Option.eq_none_iff_forall_ne_some.mpr fun a ha => ?_
    obtain ⟨r, hr⟩ : ∃ r, s.rank? c = some r := Option.ne_none_iff_exists'.mp fun hr => by
      cases ha.symm.trans ((h.paired c).mpr hr)
    cases hnone.symm.trans (h.owner?_eq_some_iff (o := ⟨a, r⟩) |>.mpr ⟨ha, hr⟩)
  · intro hnone
    refine Option.eq_none_iff_forall_ne_some.mpr fun o ho => ?_
    cases hnone.symm.trans (h.owner?_eq_some_iff.mp ho).1

/-- A node without an owner gets one, in both forms. -/
theorem claimed {child : Nat} (h : s.Stores f) (hchild : child < s.size)
    (hfree : s.parent? child = none) (o : Owner) :
    (s.setOwner child o).Stores (f.modify child fun p => { p with owner := some o }) := by
  have hranks : child < s.ranks.size := h.ranks ▸ hchild
  have hforest := h.answers.claimed hchild
    (fun _ ho => by cases hfree.symm.trans ho.1) o
  refine ⟨by rw [size_setOwner]; exact h.owned, by rw [size_setOwner]; exact h.shared,
    ?_, fun c => ?_, hforest.size.trans size_setOwner.symm, hforest.children, hforest.shared,
    @fun c o' => hforest.owner.trans ?_⟩
  · exact Array.size_setIfInBounds.trans (h.ranks.trans size_setOwner.symm)
  · rw [parent?_setOwner hchild, rank?_setOwner hranks]
    by_cases hc : c = child
    · simp [hc]
    · simpa [hc] using h.paired c
  · rw [parent?_setOwner hchild, rank?_setOwner hranks]
    by_cases hc : c = child
    · subst hc
      cases o
      cases o'
      simp [hfree, eq_comm]
    · simp [hc]

/-- A node without children gets some, in both forms. -/
theorem owns {node : Nat} {list : Array Nat} (h : s.Stores f) (hnode : node < s.size)
    (hempty : s.numChildren node = 0) :
    Stores { s with ownedLists := s.ownedLists.put node list }
      (f.modify node fun p => { p with owned := list }) := by
  have hforest := h.answers.owns hnode list
  exact ⟨h.owned.put hnode hempty, h.shared, h.ranks, h.paired, hforest.size,
    fun n => (hforest.children n).trans (h.owned.list_put hnode).symm, hforest.shared,
    hforest.owner⟩

/-- A node without shared children gets some, in both forms. -/
theorem shares {node : Nat} {list : Array Nat} (h : s.Stores f) (hnode : node < s.size)
    (hempty : s.numSharedChildren node = 0) :
    Stores { s with sharedLists := s.sharedLists.put node list }
      (f.modify node fun p => { p with shared := list }) := by
  have hforest := h.answers.shares hnode list
  exact ⟨h.owned, h.shared.put hnode hempty, h.ranks, h.paired, hforest.size, hforest.children,
    fun n => (hforest.shared n).trans (h.shared.list_put hnode).symm, hforest.owner⟩

theorem isEmpty_children_iff (h : s.Stores f) {node : Nat} :
    (f.children node).isEmpty ↔ s.numChildren node = 0 := by
  rw [h.answers.children, Array.isEmpty_iff]
  exact h.owned.list_eq_empty_iff

theorem isEmpty_shared_iff (h : s.Stores f) {node : Nat} :
    (f.shared node).isEmpty ↔ s.numSharedChildren node = 0 := by
  rw [h.answers.shared, Array.isEmpty_iff]
  exact h.shared.list_eq_empty_iff

/-! ## Edits -/

theorem checkNode_agrees (h : s.Stores f) (node : Nat) :
    Agree (PackedEdit.checkNode node) s (ForestEdit.checkNode node) f
      fun _ s' _ f' => s = s' ∧ f = f' ∧ node < s.size := by
  unfold Agree PackedEdit.checkNode ForestEdit.checkNode
  rw [h.answers.size]
  by_cases hnode : node < s.size
  · rw [if_pos hnode, if_pos hnode]
    exact ⟨rfl, rfl, hnode⟩
  · rw [if_neg hnode, if_neg hnode]

theorem claim_agrees (h : s.Stores f) (node child rank : Nat) :
    Agree (PackedEdit.claim node child rank) s (ForestEdit.claim node child rank) f
      fun _ s' _ f' => s'.Stores f' ∧ s'.size = s.size ∧ s'.ownedLists = s.ownedLists := by
  unfold Agree PackedEdit.claim ForestEdit.claim
  rw [h.answers.size]
  by_cases hchild : child < s.size
  · rw [if_pos hchild, if_pos hchild]
    cases howner : f.owner? child with
    | some o =>
      rw [(h.owner?_eq_some_iff.mp howner).1]
    | none =>
      have hfree : s.parent? child = none := h.owner?_eq_none_iff.mp howner
      rw [hfree]
      exact ⟨h.claimed hchild hfree _, size_setOwner, rfl⟩
  · rw [if_neg hchild, if_neg hchild]

theorem claims_agree (h : s.Stores f) (node : Nat) (list : List Nat) :
    Agree (list.zipIdx.forM fun (child, rank) => PackedEdit.claim node child rank) s
      (list.zipIdx.forM fun (child, rank) => ForestEdit.claim node child rank) f
      fun _ s' _ f' => s'.Stores f' ∧ s'.size = s.size ∧ s'.ownedLists = s.ownedLists := by
  refine Agree.forM (I := fun _ (s' : PackedForest) (f' : Forest) =>
    s'.Stores f' ∧ s'.size = s.size ∧ s'.ownedLists = s.ownedLists) ⟨h, rfl, rfl⟩ ?_
  rintro _ ⟨child, rank⟩ _ s' f' - ⟨h', hsize, hlists⟩
  exact (h'.claim_agrees node child rank).imp fun _ _ _ _ ⟨h'', hsize', hlists'⟩ =>
    ⟨h'', hsize'.trans hsize, hlists'.trans hlists⟩

theorem addChildren_agrees (h : s.Stores f) (node : Nat) (list : Array Nat) :
    Agree (PackedEdit.addChildren node list) s (ForestEdit.addChildren node list) f
      fun _ s' _ f' => s'.Stores f' := by
  unfold PackedEdit.addChildren ForestEdit.addChildren
  refine (h.checkNode_agrees node).bind ?_
  rintro _ _ _ _ ⟨rfl, rfl, hnode⟩
  refine Agree.get_bind ?_
  by_cases hempty : s.numChildren node = 0
  · simp only [hempty, h.isEmpty_children_iff, if_true]
    refine (h.claims_agree node list.toList).bind ?_
    rintro _ s' _ f' ⟨h', hsize, hlists⟩
    refine Agree.modify (h'.owns (hsize.symm ▸ hnode) ?_)
    unfold numChildren
    rw [hlists]
    exact hempty
  · simp only [hempty, h.isEmpty_children_iff, if_false]
    exact Agree.of_error rfl rfl

theorem addShared_agrees (h : s.Stores f) (node : Nat) (list : Array Nat) :
    Agree (PackedEdit.addShared node list) s (ForestEdit.addShared node list) f
      fun _ s' _ f' => s'.Stores f' := by
  unfold PackedEdit.addShared ForestEdit.addShared
  refine (h.checkNode_agrees node).bind ?_
  rintro _ _ _ _ ⟨rfl, rfl, hnode⟩
  refine Agree.get_bind ?_
  by_cases hempty : s.numSharedChildren node = 0
  · simp only [hempty, h.isEmpty_shared_iff, if_true, h.answers.size]
    cases list.find? (s.size ≤ ·) with
    | some bad => exact Agree.of_error rfl rfl
    | none => exact Agree.modify (h.shares hnode hempty)
  · simp only [hempty, h.isEmpty_shared_iff, if_false]
    exact Agree.of_error rfl rfl

theorem call_agrees (h : s.Stores f) (call : ForestCall) :
    Agree call.onPacked s call.onForest f fun _ s' _ f' => s'.Stores f' := by
  cases call with
  | restart numNodes => exact Stores.ofNodes numNodes
  | addChildren node children => exact h.addChildren_agrees node children
  | addShared node children => exact h.addShared_agrees node children

/-- The two forms go through the same calls, and one stores what the other answers. -/
theorem calls_agree (h : s.Stores f) (calls : List ForestCall) :
    Agree (calls.forM ForestCall.onPacked) s (calls.forM ForestCall.onForest) f
      fun _ s' _ f' => s'.Stores f' :=
  Agree.forM (I := fun _ (s' : PackedForest) (f' : Forest) => s'.Stores f') h
    fun _ call _ _ _ _ h' => h'.call_agrees call

end Stores

end PackedForest

/-! ## Rows of calls -/

namespace ForestCall

/-- The children of a node after a call, if it had those of `before`. -/
def childrenAfter (node : Nat) (before : Array Nat) : ForestCall → Array Nat
  | restart _ => #[]
  | addChildren n children => if node = n then children else before
  | addShared _ _ => before

/-- The shared children of a node after a call, if it had those of `before`. -/
def sharedAfter (node : Nat) (before : Array Nat) : ForestCall → Array Nat
  | restart _ => #[]
  | addChildren _ _ => before
  | addShared n children => if node = n then children else before

/-- The children that the last call for a node gave it, since all was dropped. -/
def lastChildren (calls : List ForestCall) (node : Nat) : Array Nat :=
  calls.foldl (childrenAfter node) #[]

/-- The shared children that the last call for a node gave it, since all was dropped. -/
def lastShared (calls : List ForestCall) (node : Nat) : Array Nat :=
  calls.foldl (sharedAfter node) #[]

variable {calls : List ForestCall} {call : ForestCall} {node : Nat}

@[simp]
theorem lastChildren_concat :
    lastChildren (calls ++ [call]) node = call.childrenAfter node (lastChildren calls node) :=
  List.foldl_concat ..

@[simp]
theorem lastShared_concat :
    lastShared (calls ++ [call]) node = call.sharedAfter node (lastShared calls node) :=
  List.foldl_concat ..

end ForestCall

open ForestCall

/-- The forest has the children that the calls gave, and owners that fit to them. -/
def Forest.Given (calls : List ForestCall) (f : Forest) : Prop :=
  f.Answers f.size (lastChildren calls) (lastShared calls) fun c o =>
    (lastChildren calls o.node)[o.rank]? = some c

namespace Forest

variable {f : Forest} {calls : List ForestCall}

namespace Given

theorem ofNodes (n : Nat) : (Forest.ofNodes n).Given [] := by
  have h := Answers.ofNodes n
  exact ⟨rfl, h.children, h.shared, @fun c o => h.owner.trans (by simp [lastChildren])⟩

theorem concat (h : f.Given calls) (call : ForestCall) :
    Leads call.onForest f (fun _ f' => f'.Given (calls ++ [call])) fun _ _ => True := by
  cases call with
  | restart numNodes =>
    have h' := Answers.ofNodes numNodes
    refine leads_set.mpr ⟨rfl, fun m => ?_, fun m => ?_, @fun c o => h'.owner.trans ?_⟩
    · rw [h'.children, lastChildren_concat, childrenAfter]
    · rw [h'.shared, lastShared_concat, sharedAfter]
    · simp [childrenAfter]
  | addChildren node children =>
    refine (ForestEdit.addChildren_decides h node children).mono ?_ fun _ _ _ => trivial
    rintro _ f' ⟨⟨-, hempty, -, -⟩, h'⟩
    refine ⟨rfl, fun m => ?_, fun m => ?_, @fun c o => h'.owner.trans ?_⟩
    · rw [h'.children, lastChildren_concat, childrenAfter]
    · rw [h'.shared, lastShared_concat, sharedAfter]
    · -- The node had no children before, so nothing that it owned is lost.
      rw [lastChildren_concat, childrenAfter]
      by_cases ho : o.node = node
      · simp [ho, hempty]
      · simp [ho]
  | addShared node children =>
    refine (ForestEdit.addShared_decides h node children).mono ?_ fun _ _ _ => trivial
    rintro _ f' ⟨-, h'⟩
    refine ⟨rfl, fun m => ?_, fun m => ?_, @fun c o => h'.owner.trans ?_⟩
    · rw [h'.children, lastChildren_concat, childrenAfter]
    · rw [h'.shared, lastShared_concat, sharedAfter]
    · rw [lastChildren_concat, childrenAfter]

/-- Every row of calls gives each node the children of the last call for it. -/
theorem of_calls (n : Nat) (calls : List ForestCall) :
    Leads (calls.forM onForest) (Forest.ofNodes n) (fun _ f => f.Given calls) fun _ _ => True :=
  Leads.forM (ofNodes n) fun _ call _ _ _ h => h.concat call

theorem linked (h : f.Given calls) : f.Linked := fun _ o => by
  rw [h.children o.node]
  exact h.owner

end Given

theorem numOwned_eq_sum : f.numOwned = ∑ n ∈ Finset.range f.size, (f.children n).size :=
  foldl_size_eq_sum f _

theorem numShared_eq_sum : f.numShared = ∑ n ∈ Finset.range f.size, (f.shared n).size :=
  foldl_size_eq_sum f _

end Forest

namespace PackedForest

variable {s : PackedForest} {f : Forest}

/-- Every question has the same answer in both forms. -/
structure Mirrors (s : PackedForest) (f : Forest) : Prop where
  size : s.size = f.size
  children : ∀ p, s.children p = f.children p
  shared : ∀ p, s.shared p = f.shared p
  numChildren : ∀ p, s.numChildren p = (f.children p).size
  numSharedChildren : ∀ p, s.numSharedChildren p = (f.shared p).size
  parent? : ∀ c, s.parent? c = f.parent? c
  rank? : ∀ c, s.rank? c = f.rank? c
  numOwned : s.numOwned = f.numOwned
  numShared : s.numShared = f.numShared

namespace Stores

theorem numOwned_eq_sum (h : s.Stores f) :
    s.numOwned = ∑ p ∈ Finset.range s.size, s.numChildren p := h.owned.sum.symm

theorem numShared_eq_sum (h : s.Stores f) :
    s.numShared = ∑ p ∈ Finset.range s.size, s.numSharedChildren p := h.shared.sum.symm

theorem mirrors (h : s.Stores f) : s.Mirrors f := by
  have hchildren (p : Nat) : s.children p = f.children p := (h.answers.children p).symm
  have hshared (p : Nat) : s.shared p = f.shared p := (h.answers.shared p).symm
  have hnum (p : Nat) : s.numChildren p = (f.children p).size := by
    rw [← hchildren]
    exact (h.owned.size_list p).symm
  have hnumShared (p : Nat) : s.numSharedChildren p = (f.shared p).size := by
    rw [← hshared]
    exact (h.shared.size_list p).symm
  refine ⟨h.answers.size.symm, hchildren, hshared, hnum, hnumShared, fun c => ?_, fun c => ?_,
    ?_, ?_⟩
  · unfold Forest.parent?
    cases ho : f.owner? c with
    | none => exact h.owner?_eq_none_iff.mp ho
    | some o => exact (h.owner?_eq_some_iff.mp ho).1
  · unfold Forest.rank?
    cases ho : f.owner? c with
    | none => exact (h.paired c).mp (h.owner?_eq_none_iff.mp ho)
    | some o => exact (h.owner?_eq_some_iff.mp ho).2
  · rw [h.numOwned_eq_sum, Forest.numOwned_eq_sum, h.answers.size]
    exact Finset.sum_congr rfl fun p _ => hnum p
  · rw [h.numShared_eq_sum, Forest.numShared_eq_sum, h.answers.size]
    exact Finset.sum_congr rfl fun p _ => hnumShared p

end Stores

/-- What a packed forest stores is in order after every row of calls that succeeds. Children fit to
owners and ranks, each node has the lists of the last calls for it since all was dropped, no node is
owned twice, and the data has nothing but these lists. A forest that goes through the same calls
answers the same. -/
theorem calls_fit (n : Nat) (calls : List ForestCall) (s : PackedForest)
    (h : (calls.forM ForestCall.onPacked).run (ofNodes n) = .ok () s) :
    (∀ p c r, s.child? p r = some c ↔ s.parent? c = some p ∧ s.rank? c = some r) ∧
    (∀ p, s.children p = lastChildren calls p ∧ s.shared p = lastShared calls p) ∧
    ((List.range s.size).flatMap fun p => (s.children p).toList).Nodup ∧
    s.numOwned = ∑ p ∈ Finset.range s.size, s.numChildren p ∧
    s.numShared = ∑ p ∈ Finset.range s.size, s.numSharedChildren p ∧
    ∃ f, (calls.forM ForestCall.onForest).run (Forest.ofNodes n) = .ok () f ∧ s.Mirrors f := by
  have hagree := (Stores.ofNodes n).calls_agree calls
  obtain ⟨_, s', _, f, hs, hf, hstores⟩ | ⟨e, s', _, hs, -⟩ := hagree.cases
  · obtain rfl : s' = s := by
      cases hs.symm.trans h
      rfl
    have hgiven := Leads.of_ok hf (Forest.Given.of_calls n calls)
    have hmirrors := hstores.mirrors
    refine ⟨fun p c r => ?_, fun p => ?_, ?_, hstores.numOwned_eq_sum, hstores.numShared_eq_sum,
      f, hf, hmirrors⟩
    · rw [child?, hmirrors.children, ← hgiven.linked c ⟨p, r⟩]
      exact hstores.owner?_eq_some_iff
    · rw [hmirrors.children, hmirrors.shared]
      exact ⟨hgiven.children p, hgiven.shared p⟩
    · simp only [hmirrors.children]
      exact hgiven.linked.nodup_flatMap List.nodup_range
  · cases hs.symm.trans h

/-- All is dropped after the first call; lists are given in any order, and empty ones again. -/
theorem calls_fit_restart :
    let calls := [addChildren 0 #[1], .restart 4, .addShared 3 #[], .addChildren 2 #[3],
      .addChildren 1 #[], .addShared 3 #[0, 0], .addChildren 0 #[2, 1], .addChildren 1 #[]]
    let s : PackedForest := {
      ownedLists.spans := #[⟨1, 2⟩, ⟨3, 0⟩, ⟨0, 1⟩, ⟨0, 0⟩]
      ownedLists.data := #[3, 2, 1]
      sharedLists.spans := #[⟨0, 0⟩, ⟨0, 0⟩, ⟨0, 0⟩, ⟨0, 2⟩]
      sharedLists.data := #[0, 0]
      parents := #[none, some 0, some 0, some 2]
      ranks := #[none, some 1, some 0, some 0] }
    (calls.forM ForestCall.onPacked).run (ofNodes 2) = .ok () s ∧
      (s.child? 0 1 = some 1 ↔ s.parent? 1 = some 0 ∧ s.rank? 1 = some 1) ∧
      s.children 2 = lastChildren calls 2 ∧ lastChildren calls 2 = #[3] ∧
      s.numOwned = ∑ p ∈ Finset.range s.size, s.numChildren p ∧ s.numOwned = 3 := by
  intro calls s
  have hs : (calls.forM ForestCall.onPacked).run (ofNodes 2) = .ok () s := rfl
  obtain ⟨hchild, hlists, -, howned, -⟩ := calls_fit 2 calls s hs
  exact ⟨hs, hchild 0 1 1, (hlists 2).1, rfl, howned, rfl⟩

end PackedForest

end CaptureForest
