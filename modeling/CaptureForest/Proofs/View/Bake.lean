import CaptureForest.Proofs.View.EdgeLists
import CaptureForest.View.Forest

/-! # Finished views

Edge lists in which every node has at most one owner become a forest (`EdgeLists.WF.bakes`): the
children of every node are those of the lists, and each node knows its owner and its rank there.
Other lists do not (`EdgeLists.WF.of_bakes`). -/

namespace CaptureForest

/-- All edges lead to nodes, and no node is owned twice. -/
structure EdgeLists.WF (g : EdgeLists) : Prop where
  owned_lt : ∀ {n c}, c ∈ g.owned n → c < g.size
  shared_lt : ∀ {n c}, c ∈ g.shared n → c < g.size
  nodup : ∀ n, (g.owned n).toList.Nodup
  once : ∀ {a b c}, c ∈ g.owned a → c ∈ g.owned b → a = b

/-- The forest has the nodes and edges of the lists, and owners fit to owned children. -/
structure Forest.Bakes (f : Forest) (g : EdgeLists) : Prop where
  size : f.size = g.size
  children : ∀ n, f.children n = g.owned n
  shared : ∀ n, f.shared n = g.shared n
  owner : ∀ {c o}, f.owner? c = some o ↔ (g.owned o.node)[o.rank]? = some c

/-- What a forest answers about its nodes. -/
structure Forest.Answers (f : Forest) (size : Nat) (children shared : Nat → Array Nat)
    (owner : Nat → Owner → Prop) : Prop where
  size : f.size = size
  children : ∀ n, f.children n = children n
  shared : ∀ n, f.shared n = shared n
  owner : ∀ {c o}, f.owner? c = some o ↔ owner c o

namespace Forest

variable {f : Forest} {n : Nat}

theorem children_modify (hn : n < f.size) (h : Place → Place) (m : Nat) :
    Forest.children (f.modify n h) m = if m = n then (h f[n]).owned else f.children m := by
  unfold children
  rw [Array.getElem?_modify]
  by_cases hm : n = m
  · subst hm; simp [Array.getElem?_eq_getElem hn]
  · simp [hm, Ne.symm hm]

theorem shared_modify (hn : n < f.size) (h : Place → Place) (m : Nat) :
    Forest.shared (f.modify n h) m = if m = n then (h f[n]).shared else f.shared m := by
  unfold shared
  rw [Array.getElem?_modify]
  by_cases hm : n = m
  · subst hm; simp [Array.getElem?_eq_getElem hn]
  · simp [hm, Ne.symm hm]

theorem owner?_modify (hn : n < f.size) (h : Place → Place) (m : Nat) :
    Forest.owner? (f.modify n h) m = if m = n then (h f[n]).owner else f.owner? m := by
  unfold owner?
  rw [Array.getElem?_modify]
  by_cases hm : n = m
  · subst hm; simp [Array.getElem?_eq_getElem hn]
  · simp [hm, Ne.symm hm]

theorem lt_of_mem_children {c : Nat} (h : c ∈ f.children n) : n < f.size := by
  refine Nat.lt_of_not_le fun hn => ?_
  rw [children, Array.getElem?_eq_none hn] at h
  simp at h

theorem children_eq (hn : n < f.size) : f.children n = f[n].owned := by
  simp [children, Array.getElem?_eq_getElem hn]

theorem shared_eq (hn : n < f.size) : f.shared n = f[n].shared := by
  simp [shared, Array.getElem?_eq_getElem hn]

theorem owner?_eq (hn : n < f.size) : f.owner? n = f[n].owner := by
  simp [owner?, Array.getElem?_eq_getElem hn]

/-- A change of a place that leaves its children alone. -/
theorem children_modify_same (hn : n < f.size) {h : Place → Place}
    (hsame : ∀ p, (h p).owned = p.owned) (m : Nat) :
    Forest.children (f.modify n h) m = f.children m := by
  rw [children_modify hn, hsame, ← children_eq hn, ite_eq_right_iff]
  exact fun hm => hm ▸ rfl

/-- A change of a place that leaves its shared children alone. -/
theorem shared_modify_same (hn : n < f.size) {h : Place → Place}
    (hsame : ∀ p, (h p).shared = p.shared) (m : Nat) :
    Forest.shared (f.modify n h) m = f.shared m := by
  rw [shared_modify hn, hsame, ← shared_eq hn, ite_eq_right_iff]
  exact fun hm => hm ▸ rfl

/-- A change of a place that leaves its owner alone. -/
theorem owner?_modify_same (hn : n < f.size) {h : Place → Place}
    (hsame : ∀ p, (h p).owner = p.owner) (m : Nat) :
    Forest.owner? (f.modify n h) m = f.owner? m := by
  rw [owner?_modify hn, hsame, ← owner?_eq hn, ite_eq_right_iff]
  exact fun hm => hm ▸ rfl

attribute [local ext] Place

/-- Edge lists become one forest only. -/
theorem Bakes.unique {f' : Forest} {g : EdgeLists} (h : f.Bakes g) (h' : f'.Bakes g) :
    f = f' := by
  refine Array.ext (h.size.trans h'.size.symm) fun n hn hn' => ?_
  ext1
  · rw [← children_eq hn, ← children_eq hn', h.children, h'.children]
  · rw [← shared_eq hn, ← shared_eq hn', h.shared, h'.shared]
  · rw [← owner?_eq hn, ← owner?_eq hn']
    exact Option.ext fun o => h.owner.trans h'.owner.symm

namespace Answers

variable {size node child : Nat} {children shared : Nat → Array Nat} {owner : Nat → Owner → Prop}

theorem ofNodes (n : Nat) :
    (Forest.ofNodes n).Answers n (fun _ => #[]) (fun _ => #[]) fun _ _ => False := by
  have hget (m : Nat) :
      (Forest.ofNodes n)[m]? = none ∨ (Forest.ofNodes n)[m]? = some ({} : Place) := by
    rw [Forest.ofNodes, Array.getElem?_replicate]
    split <;> simp
  refine ⟨Array.size_replicate, fun m => ?_, fun m => ?_, @fun c o => ?_⟩
  · rcases hget m with hm | hm <;> simp [Forest.children, hm]
  · rcases hget m with hm | hm <;> simp [Forest.shared, hm]
  · rcases hget c with hc | hc <;> simp [Forest.owner?, hc]

theorem congr_owner {owner' : Nat → Owner → Prop} (h : f.Answers size children shared owner)
    (howner : ∀ c o, owner c o ↔ owner' c o) : f.Answers size children shared owner' :=
  ⟨h.size, h.children, h.shared, h.owner.trans (howner _ _)⟩

/-- A node without an owner gets one. -/
theorem claimed (h : f.Answers size children shared owner) (hchild : child < size)
    (hfree : ∀ o, ¬owner child o) (o : Owner) :
    Answers (f.modify child fun p => { p with owner := some o }) size children shared
      fun c o' => owner c o' ∨ c = child ∧ o' = o := by
  have hlt : child < f.size := h.size ▸ hchild
  refine ⟨Array.size_modify.trans h.size, fun n => ?_, fun n => ?_, @fun c o' => ?_⟩
  · rw [← h.children, children_modify_same hlt]
    exact fun _ => rfl
  · rw [← h.shared, shared_modify_same hlt]
    exact fun _ => rfl
  · rw [owner?_modify hlt]
    split
    · rename_i hn
      subst hn
      simp [hfree, eq_comm]
    · rename_i hn
      simp [h.owner, hn]

/-- A node gets its children. -/
theorem owns (h : f.Answers size children shared owner) (hnode : node < size) (list : Array Nat) :
    Answers (f.modify node fun p => { p with owned := list }) size
      (fun n => if n = node then list else children n) shared owner := by
  have hlt : node < f.size := h.size ▸ hnode
  refine ⟨Array.size_modify.trans h.size, fun n => ?_, fun n => ?_, @fun c o => ?_⟩
  · rw [children_modify hlt, h.children]
  · rw [← h.shared, shared_modify_same hlt]
    exact fun _ => rfl
  · rw [← h.owner, owner?_modify_same hlt]
    exact fun _ => rfl

/-- A node gets its shared children. -/
theorem shares (h : f.Answers size children shared owner) (hnode : node < size)
    (list : Array Nat) :
    Answers (f.modify node fun p => { p with shared := list }) size children
      (fun n => if n = node then list else shared n) owner := by
  have hlt : node < f.size := h.size ▸ hnode
  refine ⟨Array.size_modify.trans h.size, fun n => ?_, fun n => ?_, @fun c o => ?_⟩
  · rw [← h.children, children_modify_same hlt]
    exact fun _ => rfl
  · rw [shared_modify hlt, h.shared]
  · rw [← h.owner, owner?_modify_same hlt]
    exact fun _ => rfl

end Answers

end Forest

namespace ForestEdit

open Forest

variable {f : Forest} {size node : Nat} {children shared : Nat → Array Nat}
  {owner : Nat → Owner → Prop} {taken : List Nat}

theorem claim_decides (h : f.Answers size children shared owner) (node child rank : Nat) :
    Decides (claim node child rank) f (child < size ∧ ∀ o, ¬owner child o) fun _ f' =>
      f'.Answers size children shared fun c o => owner c o ∨ c = child ∧ o = { node, rank } := by
  by_cases hc : child < f.size
  · cases ho : f.owner? child with
    | some o =>
      have hx : claim node child rank f = .error (.alreadyOwned child o.node node) f := by
        unfold claim
        rw [if_pos hc, ho]
      unfold Decides Leads
      rw [hx]
      exact fun hfree => hfree.2 o (h.owner.mp ho)
    | none =>
      have hfree (o : Owner) : ¬owner child o := fun hown => by
        cases ho.symm.trans (h.owner.mpr hown)
      refine Leads.intro_at () (f.modify child fun p => { p with owner := some { node, rank } })
        ?_ ⟨⟨h.size ▸ hc, hfree⟩, h.claimed (h.size ▸ hc) hfree _⟩
      unfold claim
      rw [if_pos hc, ho]
  · have hx : claim node child rank f = .error (.nodeOutOfRange child f.size) f := if_neg hc
    unfold Decides Leads
    rw [hx]
    exact fun hfree => hc (h.size ▸ hfree.1)

/-- Who owns a node if `node` has claimed the children `taken`, beside the owners there were. -/
def Claimed (owner : Nat → Owner → Prop) (node : Nat) (taken : List Nat) (c : Nat) (o : Owner) :
    Prop :=
  owner c o ∨ o.node = node ∧ taken[o.rank]? = some c

theorem claimed_concat {c child : Nat} {o : Owner} :
    Claimed owner node (taken ++ [child]) c o ↔
      Claimed owner node taken c o ∨ c = child ∧ o = { node, rank := taken.length } := by
  unfold Claimed
  rw [or_assoc]
  refine or_congr_right ?_
  obtain ⟨n, r⟩ := o
  rcases Nat.lt_trichotomy r taken.length with hr | rfl | hr
  · simp [List.getElem?_append_left hr, Nat.ne_of_lt hr]
  · simp [eq_comm, and_comm]
  · have hnone : (taken ++ [child])[r]? = none :=
      List.getElem?_eq_none (by simpa using Nat.succ_le_of_lt hr)
    simp [hnone, List.getElem?_eq_none (Nat.le_of_lt hr), Nat.ne_of_gt hr]

/-- A node has no owner if it had none and was not claimed. -/
theorem not_claimed_iff {c : Nat} :
    (∀ o, ¬Claimed owner node taken c o) ↔ (∀ o, ¬owner c o) ∧ c ∉ taken := by
  simp only [Claimed, not_or, forall_and, List.mem_iff_getElem?]
  refine and_congr_right fun _ => ⟨fun h ⟨r, hr⟩ => h ⟨node, r⟩ ⟨rfl, hr⟩, fun h o ho => ?_⟩
  exact h ⟨o.rank, ho.2⟩

/-- One more child is claimed. -/
theorem claim_next_decides (h : f.Answers size children shared (Claimed owner node taken))
    (child : Nat) :
    Decides (claim node child taken.length) f
      ((child < size ∧ ∀ o, ¬owner child o) ∧ child ∉ taken) fun _ f' =>
      f'.Answers size children shared (Claimed owner node (taken ++ [child])) :=
  ((claim_decides h node child taken.length).congr (by rw [not_claimed_iff, and_assoc])).imp
    fun _ _ _ h' => h'.congr_owner fun _ _ => claimed_concat.symm

/-- Children can be claimed behind others if all are nodes without an owner, and none is claimed
twice. -/
theorem claims_decide_from (h : f.Answers size children shared (Claimed owner node taken))
    (list : List Nat) :
    Decides ((list.zipIdx taken.length).forM fun (child, rank) => claim node child rank) f
      ((∀ c ∈ list, (c < size ∧ ∀ o, ¬owner c o) ∧ c ∉ taken) ∧ list.Nodup) fun _ f' =>
      f'.Answers size children shared (Claimed owner node (taken ++ list)) := by
  induction list generalizing f taken with
  | nil =>
    rw [List.append_nil]
    exact ⟨⟨fun _ hc => absurd hc List.not_mem_nil, List.nodup_nil⟩, h⟩
  | cons child list ih =>
    have hrest {f' : Forest}
        (h' : f'.Answers size children shared (Claimed owner node (taken ++ [child]))) :=
      ih h'
    simp only [List.length_append, List.length_singleton, List.append_assoc,
      List.singleton_append] at hrest
    rw [List.zipIdx_cons, List.forM_eq_forM, List.forM_cons]
    refine ((claim_next_decides h child).bind fun _ _ _ => hrest).congr ?_
    simp only [List.forall_mem_cons, List.nodup_cons, List.mem_append, List.mem_singleton, not_or]
    grind

/-- Children can be claimed if all are nodes without an owner, and none is claimed twice. -/
theorem claims_decide (h : f.Answers size children shared owner) (node : Nat) (list : List Nat) :
    Decides (list.zipIdx.forM fun (child, rank) => claim node child rank) f
      ((∀ c ∈ list, c < size ∧ ∀ o, ¬owner c o) ∧ list.Nodup) fun _ f' =>
      f'.Answers size children shared (Claimed owner node list) := by
  have hnone : f.Answers size children shared (Claimed owner node []) :=
    h.congr_owner fun _ _ => by simp [Claimed]
  exact (claims_decide_from hnone list).congr (by simp)

theorem checkNode_decides (node : Nat) :
    Decides (checkNode node) f (node < f.size) fun _ f' => f = f' := by
  unfold Decides Leads checkNode
  by_cases hn : node < f.size
  · rw [if_pos hn]
    exact ⟨hn, rfl⟩
  · rw [if_neg hn]
    exact hn

/-- Children can be given to a node that has none, if all are nodes without an owner. -/
theorem addChildren_decides (h : f.Answers size children shared owner) (node : Nat)
    (list : Array Nat) :
    Decides (addChildren node list) f
      (node < size ∧ children node = #[] ∧
        (∀ c ∈ list.toList, c < size ∧ ∀ o, ¬owner c o) ∧ list.toList.Nodup) fun _ f' =>
      f'.Answers size (fun n => if n = node then list else children n) shared fun c o =>
        owner c o ∨ o.node = node ∧ list[o.rank]? = some c := by
  unfold addChildren
  refine Decides.bind ((checkNode_decides node).congr (by rw [h.size])) ?_
  rintro _ _ hn rfl
  by_cases hempty : children node = #[]
  · simp only [Decides, leads_bind, leads_get, h.children, hempty, Array.isEmpty_empty, if_true,
      leads_modify, true_and]
    refine (claims_decide h node list.toList).imp fun _ f' _ h' => ?_
    exact (h'.owns hn list).congr_owner fun _ _ => by simp [Claimed]
  · have hne : (children node).isEmpty = false := by simpa using hempty
    simp only [Decides, leads_bind, leads_get, h.children, hne, Bool.false_eq_true, if_false,
      leads_throw]
    exact fun hC => hempty hC.1

/-- Children can be shared by a node that shares none, if all are nodes. -/
theorem addShared_decides (h : f.Answers size children shared owner) (node : Nat)
    (list : Array Nat) :
    Decides (addShared node list) f
      (node < size ∧ shared node = #[] ∧ ∀ c ∈ list, c < size) fun _ f' =>
      f'.Answers size children (fun n => if n = node then list else shared n) owner := by
  unfold addShared
  refine Decides.bind ((checkNode_decides node).congr (by rw [h.size])) ?_
  rintro _ _ hn rfl
  by_cases hempty : shared node = #[]
  · simp only [Decides, leads_bind, leads_get, h.shared, hempty, Array.isEmpty_empty, if_true,
      true_and]
    cases hfind : list.find? (f.size ≤ ·) with
    | some bad =>
      have hbad := Array.find?_some hfind
      have hmem := Array.mem_of_find?_eq_some hfind
      rw [h.size, decide_eq_true_eq] at hbad
      exact fun hlt => Nat.not_lt.mpr hbad (hlt bad hmem)
    | none =>
      have hlt : ∀ c ∈ list, c < size := fun c hc => by
        simpa [h.size] using Array.find?_eq_none.mp hfind c hc
      simp only [leads_modify]
      exact ⟨hlt, h.shares hn list⟩
  · have hne : (shared node).isEmpty = false := by simpa using hempty
    simp only [Decides, leads_bind, leads_get, h.shared, hne, Bool.false_eq_true, if_false,
      leads_throw]
    exact fun hC => hempty hC.1

theorem addEdges_eq (node : Nat) (e : Edges) :
    addEdges node e =
      (if e.owned.isEmpty then pure () else addChildren node e.owned) >>= fun _ =>
        if e.shared.isEmpty then pure () else addShared node e.shared := by
  unfold addEdges
  cases e.owned.isEmpty <;> rfl

end ForestEdit

namespace EdgeLists

variable {g : EdgeLists}

/-- A forest that has the edges from the first `k` nodes. -/
def BakedTo (g : EdgeLists) (k : Nat) (f : Forest) : Prop :=
  f.Answers g.size (fun n => if n < k then g.owned n else #[])
    (fun n => if n < k then g.shared n else #[])
    fun c o => o.node < k ∧ (g.owned o.node)[o.rank]? = some c

theorem lt_succ_ite (edges : Nat → Array Nat) (k n : Nat) :
    (if n < k + 1 then edges n else #[]) =
      if n = k then edges k else if n < k then edges n else #[] := by
  by_cases hn : n = k
  · simp [hn]
  · simp [hn, show n < k + 1 ↔ n < k by omega]

/-- A node can get its children behind those of the nodes before it. -/
structure Fits (g : EdgeLists) (k : Nat) : Prop where
  owned_lt : ∀ {c}, c ∈ g.owned k → c < g.size
  shared_lt : ∀ {c}, c ∈ g.shared k → c < g.size
  nodup : (g.owned k).toList.Nodup
  fresh : ∀ {n c}, n < k → c ∈ g.owned n → c ∉ g.owned k

/-- The edges of a view are in order if those of each node fit to those of the nodes before. -/
theorem wf_iff_fits : g.WF ↔ ∀ k < g.size, g.Fits k := by
  constructor
  · exact fun h k _ => ⟨h.owned_lt, h.shared_lt, h.nodup k,
      fun hn hc hc' => Nat.ne_of_lt hn (h.once hc hc')⟩
  · intro h
    refine ⟨fun hc => (h _ (lt_of_mem_owned hc)).owned_lt hc,
      fun hc => (h _ (lt_of_mem_shared hc)).shared_lt hc, fun n => ?_, @fun a b c ha hb => ?_⟩
    · by_cases hn : n < g.size
      · exact (h n hn).nodup
      · rw [owned, Array.getElem?_eq_none (by omega)]
        exact List.nodup_nil
    · rcases Nat.lt_trichotomy a b with hlt | heq | hlt
      · exact absurd hb ((h b (lt_of_mem_owned hb)).fresh hlt ha)
      · exact heq
      · exact absurd ha ((h a (lt_of_mem_owned ha)).fresh hlt hb)

/-- The next node gets its owned children; a node without any is passed over. -/
theorem owned_decides {k : Nat} {e : Edges} {f : Forest} (he : g[k]? = some e)
    (hk : g.BakedTo k f) :
    Decides (if e.owned.isEmpty then pure () else ForestEdit.addChildren k e.owned) f
      ((∀ c ∈ (g.owned k).toList, c < g.size ∧ ∀ n < k, c ∉ g.owned n) ∧
        (g.owned k).toList.Nodup) fun _ f' =>
      f'.Answers g.size (fun n => if n < k + 1 then g.owned n else #[])
        (fun n => if n < k then g.shared n else #[])
        fun c o => o.node < k + 1 ∧ (g.owned o.node)[o.rank]? = some c := by
  have hlt : k < g.size := (Array.getElem?_eq_some_iff.mp he).1
  have howned : g.owned k = e.owned := by simp [owned, he]
  have hrel (c : Nat) (o : Owner) : (o.node < k + 1 ∧ (g.owned o.node)[o.rank]? = some c) ↔
      (o.node < k ∧ (g.owned o.node)[o.rank]? = some c) ∨
        o.node = k ∧ e.owned[o.rank]? = some c := by
    by_cases hn : o.node = k
    · simp [hn, howned]
    · simp [hn, show o.node < k + 1 ↔ o.node < k by omega]
  by_cases hempty : e.owned = #[]
  · rw [howned, hempty]
    refine ⟨⟨by simp, by simp⟩, hk.size, fun n => ?_, hk.shared, @fun c o => ?_⟩
    · rw [hk.children, lt_succ_ite, howned, hempty]
      by_cases hn : n = k
      · simp [hn]
      · simp [hn]
    · rw [hk.owner, hrel, hempty]
      simp
  · have hfresh (c : Nat) : (∀ o : Owner, ¬(o.node < k ∧ (g.owned o.node)[o.rank]? = some c)) ↔
        ∀ n < k, c ∉ g.owned n := by
      constructor
      · intro h n hn hc
        obtain ⟨rank, hrank⟩ := Array.getElem?_of_mem hc
        exact h ⟨n, rank⟩ ⟨hn, hrank⟩
      · exact fun h o ho => h o.node ho.1 (Array.mem_of_getElem? ho.2)
    rw [if_neg (by simpa using hempty)]
    refine ((ForestEdit.addChildren_decides hk k e.owned).congr ?_).imp
      fun _ f' _ h' => ⟨h'.size, fun n => ?_, h'.shared, @fun c o => ?_⟩
    · simp only [hlt, Nat.lt_irrefl, if_false, true_and, hfresh, howned]
    · rw [h'.children, lt_succ_ite, howned]
    · rw [h'.owner, hrel]

/-- The next node gets its shared children behind the owned ones. -/
theorem shared_decides {k : Nat} {e : Edges} {f : Forest} (he : g[k]? = some e)
    (hk : f.Answers g.size (fun n => if n < k + 1 then g.owned n else #[])
      (fun n => if n < k then g.shared n else #[])
      fun c o => o.node < k + 1 ∧ (g.owned o.node)[o.rank]? = some c) :
    Decides (if e.shared.isEmpty then pure () else ForestEdit.addShared k e.shared) f
      (∀ c ∈ g.shared k, c < g.size) fun _ f' => g.BakedTo (k + 1) f' := by
  have hlt : k < g.size := (Array.getElem?_eq_some_iff.mp he).1
  have hshared : g.shared k = e.shared := by simp [shared, he]
  by_cases hempty : e.shared = #[]
  · rw [hshared, hempty]
    refine ⟨by simp, hk.size, hk.children, fun n => ?_, hk.owner⟩
    rw [hk.shared, lt_succ_ite, hshared, hempty]
    by_cases hn : n = k
    · simp [hn]
    · simp [hn]
  · have hfree : (fun n => if n < k then g.shared n else #[]) k = #[] := if_neg (Nat.lt_irrefl k)
    rw [if_neg (by simpa using hempty)]
    refine ((ForestEdit.addShared_decides hk k e.shared).congr ?_).imp
      fun _ f' _ h' => ⟨h'.size, h'.children, fun n => ?_, h'.owner⟩
    · simp only [hlt, Nat.lt_irrefl, if_false, true_and, hshared]
    · rw [h'.shared, lt_succ_ite, hshared]

theorem bakedTo_succ {k : Nat} {e : Edges} {f : Forest} (he : g[k]? = some e)
    (hk : g.BakedTo k f) :
    Decides (ForestEdit.addEdges k e) f (g.Fits k) fun _ f' => g.BakedTo (k + 1) f' := by
  rw [ForestEdit.addEdges_eq]
  refine ((owned_decides he hk).bind fun _ f' _ h' => shared_decides he h').congr ?_
  constructor
  · rintro ⟨⟨howned, hnodup⟩, hshared⟩
    exact ⟨fun hc => (howned _ (Array.mem_def.mp hc)).1, hshared _, hnodup,
      fun hn hc hc' => (howned _ (Array.mem_def.mp hc')).2 _ hn hc⟩
  · intro h
    exact ⟨⟨fun c hc => ⟨h.owned_lt (Array.mem_def.mpr hc),
      fun n hn hc' => h.fresh hn hc' (Array.mem_def.mpr hc)⟩, h.nodup⟩, fun c => h.shared_lt⟩

theorem bakedTo_zero : g.BakedTo 0 (Forest.ofNodes g.size) := by
  simpa [BakedTo] using Forest.Answers.ofNodes g.size

theorem addAll_decides (g : EdgeLists) :
    Decides (g.toList.zipIdx.forM fun (e, node) => ForestEdit.addEdges node e)
      (Forest.ofNodes g.size) g.WF fun _ f => g.BakedTo g.size f := by
  rw [wf_iff_fits]
  refine (Leads.forM (I := fun done f => (∀ k < done.length, g.Fits k) ∧ g.BakedTo done.length f)
    ⟨nofun, bakedTo_zero⟩ ?_).imp fun _ f h' => by simpa using h'
  rintro done ⟨e, node⟩ rest f hl ⟨hfits, hI⟩
  have hget : g.toList.zipIdx[done.length]? = some (e, node) := by rw [hl]; simp
  rw [List.getElem?_zipIdx] at hget
  obtain ⟨_, he, heq⟩ := Option.map_eq_some_iff.mp hget
  cases heq
  rw [Array.getElem?_toList] at he
  simp only [Nat.zero_add, List.length_append, List.length_singleton]
  refine (bakedTo_succ he hI).mono (fun _ f' h' => ⟨fun k hk => ?_, h'.2⟩) fun _ _ hfails hall =>
    hfails (hall done.length (Array.getElem?_eq_some_iff.mp he).1)
  rcases Nat.lt_succ_iff_lt_or_eq.mp hk with hk | rfl
  · exact hfits k hk
  · exact h'.1

/-- Edge lists become a forest if all edges lead to nodes and no node is owned twice. -/
theorem WF.bakes (h : g.WF) : ∃ f, Forest.ofEdgeLists? g = .ok f ∧ f.Bakes g := by
  obtain ⟨_, f, hf, hbaked⟩ := (g.addAll_decides.succeeds h).exists_ok
  refine ⟨f, ?_, hbaked.size, fun n => ?_, fun n => ?_, @fun c o => ?_⟩
  · unfold Forest.ofEdgeLists?
    rw [EStateM.run, hf]
  · rw [hbaked.children]
    split
    · rfl
    · rw [owned, Array.getElem?_eq_none (by omega)]; rfl
  · rw [hbaked.shared]
    split
    · rfl
    · rw [shared, Array.getElem?_eq_none (by omega)]; rfl
  · rw [hbaked.owner]
    exact and_iff_right_of_imp fun ho => lt_of_mem_owned (Array.mem_of_getElem? ho)

/-- Only such edge lists become a forest. -/
theorem WF.of_bakes {f : Forest} (h : Forest.ofEdgeLists? g = .ok f) : g.WF := by
  unfold Forest.ofEdgeLists? EStateM.run at h
  split at h
  · rename_i hf
    exact (g.addAll_decides.of_ok hf).1
  · cases h

end EdgeLists

end CaptureForest
