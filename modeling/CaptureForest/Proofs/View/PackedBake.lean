import CaptureForest.Proofs.View.Packed

/-! # Packing edge lists

Whatever is done to edge lists, and whatever of it fails, all edges lead to nodes
(`EdgeLists.inside_stateAfterAll`). So nothing but a node that is owned twice can keep them from being
packed, and what is packed has the same lists (`PackedForest.ofEdgeLists?_iff`). To pack edge lists is
to make calls, node by node (`EdgeLists.calls`). -/

namespace CaptureForest

namespace EdgeLists

variable {g g' : EdgeLists} {n c : Nat} {owned shared : EdgeLog}

/-- All edges lead to nodes. -/
structure Inside (g : EdgeLists) : Prop where
  owned : ∀ {n c}, c ∈ g.owned n → c < g.size
  shared : ∀ {n c}, c ∈ g.shared n → c < g.size

namespace Inside

theorem ofNodes (k : Nat) : (EdgeLists.ofNodes k).Inside := by
  have hget (n : Nat) : (EdgeLists.ofNodes k)[n]? = none ∨
      (EdgeLists.ofNodes k)[n]? = some ({} : Edges) := by
    rw [EdgeLists.ofNodes, Array.getElem?_replicate]
    split <;> simp
  refine ⟨fun {n c} hc => ?_, fun {n c} hc => ?_⟩
  · rcases hget n with hn | hn <;> simp [EdgeLists.owned, hn] at hc
  · rcases hget n with hn | hn <;> simp [EdgeLists.shared, hn] at hc

theorem gains (h : g.Inside) (hg : g.Gains g' owned shared)
    (howned : ∀ e ∈ owned, e.2 < g.size) (hshared : ∀ e ∈ shared, e.2 < g.size) : g'.Inside := by
  refine ⟨fun {n c} hc => ?_, fun {n c} hc => ?_⟩
  · rw [Array.mem_def, hg.owned] at hc
    rw [hg.size]
    rcases List.mem_append.mp hc with hc | hc
    · exact h.owned (Array.mem_def.mpr hc)
    · exact howned _ (EdgeLog.mem_children.mp hc)
  · rw [Array.mem_def, hg.shared] at hc
    rw [hg.size]
    rcases List.mem_append.mp hc with hc | hc
    · exact h.shared (Array.mem_def.mpr hc)
    · exact hshared _ (EdgeLog.mem_children.mp hc)

theorem pushNode (h : g.Inside) : g.pushNode.Inside := by
  refine ⟨fun {n c} hc => ?_, fun {n c} hc => ?_⟩
  · rw [owned_pushNode] at hc
    exact size_pushNode ▸ Nat.lt_succ_of_lt (h.owned hc)
  · rw [shared_pushNode] at hc
    exact size_pushNode ▸ Nat.lt_succ_of_lt (h.shared hc)

theorem addOwned (h : g.Inside) (n c : Nat) :
    Leads (EdgeEdit.addOwned n c) g (fun _ g' => g'.Inside) fun _ g' => g'.Inside := by
  by_cases hlt : n < g.size ∧ c < g.size
  · refine (EdgeEdit.addOwned_succeeds hlt.1 hlt.2).leads fun _ g' hg => h.gains hg ?_ nofun
    simpa using hlt.2
  · unfold Leads EdgeEdit.addOwned
    rw [if_neg hlt]
    exact h

theorem addShared (h : g.Inside) (n c : Nat) :
    Leads (EdgeEdit.addShared n c) g (fun _ g' => g'.Inside) fun _ g' => g'.Inside := by
  by_cases hlt : n < g.size ∧ c < g.size
  · refine (EdgeEdit.addShared_succeeds hlt.1 hlt.2).leads fun _ g' hg => h.gains hg nofun ?_
    simpa using hlt.2
  · unfold Leads EdgeEdit.addShared
    rw [if_neg hlt]
    exact h

/-- Children are removed, be it that not all were found. -/
theorem removeOwned (h : g.Inside) (n : Nat) (children : List Nat) :
    Leads (EdgeEdit.removeOwned n children) g (fun _ g' => g'.Inside) fun _ g' => g'.Inside := by
  by_cases hn : n < g.size
  · have hkept : (g.setOwned n (EdgeEdit.Removal.run children (g.owned n)).kept).Inside := by
      refine ⟨fun {m c} hc => ?_, fun {m c} hc => ?_⟩
      · rw [owned_setOwned hn] at hc
        rw [size_setOwned]
        split at hc
        · exact h.owned (EdgeEdit.Removal.mem_of_mem_kept hc)
        · exact h.owned hc
      · rw [shared_setOwned] at hc
        rw [size_setOwned]
        exact h.shared hc
    unfold Leads EdgeEdit.removeOwned
    rw [if_pos hn]
    dsimp only
    cases (EdgeEdit.Removal.run children (g.owned n)).wanted.isEmpty with
    | true => exact hkept
    | false => exact hkept
  · unfold Leads EdgeEdit.removeOwned
    rw [if_neg hn]
    exact h

theorem edit (h : g.Inside) (call : EdgeCall) :
    Leads call.edit g (fun _ g' => g'.Inside) fun _ g' => g'.Inside := by
  cases call with
  | restart numNodes => exact .ofNodes numNodes
  | pushNode => exact h.pushNode
  | addOwned n c => exact h.addOwned n c
  | addShared n c => exact h.addShared n c
  | removeOwned n children => exact h.removeOwned n children

/-- Edges that lead to nodes are in order if no node is twice among the children of all nodes. -/
theorem wf_iff (h : g.Inside) :
    g.WF ↔ ((List.range g.size).flatMap fun n => (g.owned n).toList).Nodup := by
  rw [List.nodup_flatMap]
  constructor
  · intro hwf
    refine ⟨fun n _ => hwf.nodup n, List.nodup_range.imp fun {a b} hne c ha hb => hne ?_⟩
    exact hwf.once (Array.mem_def.mpr ha) (Array.mem_def.mpr hb)
  · rintro ⟨hnodup, hdisjoint⟩
    refine ⟨h.owned, h.shared, fun n => ?_, @fun a b c ha hb => ?_⟩
    · by_cases hn : n < g.size
      · exact hnodup n (List.mem_range.mpr hn)
      · rw [EdgeLists.owned, Array.getElem?_eq_none (Nat.le_of_not_lt hn)]
        exact List.nodup_nil
    · have hsymm : Std.Symm (Function.onFun List.Disjoint fun n => (g.owned n).toList) :=
        ⟨fun _ _ hd => hd.symm⟩
      by_contra hne
      have hab := hdisjoint.forall (List.mem_range.mpr (lt_of_mem_owned ha))
        (List.mem_range.mpr (lt_of_mem_owned hb)) hne
      exact hab (Array.mem_def.mp ha) (Array.mem_def.mp hb)

end Inside

theorem inside_stateAfterAll (calls : List EdgeCall) :
    EdgeLists.Inside (stateAfterAll EdgeCall.edit calls #[]) :=
  stateAfterAll_induct (P := Inside) (.ofNodes 0) fun call _ h => h.edit call

theorem numOwned_eq_sum : g.numOwned = ∑ n ∈ Finset.range g.size, (g.owned n).size :=
  foldl_size_eq_sum g _

theorem numShared_eq_sum : g.numShared = ∑ n ∈ Finset.range g.size, (g.shared n).size :=
  foldl_size_eq_sum g _

end EdgeLists

/-! ## Calls -/

/-- The calls that give a node its edges. -/
def Edges.calls (e : Edges) (node : Nat) : List ForestCall :=
  (if e.owned.isEmpty then [] else [.addChildren node e.owned]) ++
    if e.shared.isEmpty then [] else [.addShared node e.shared]

/-- The calls that give all nodes their edges, node by node. -/
def EdgeLists.calls (g : EdgeLists) : List ForestCall :=
  g.toList.zipIdx.flatMap fun (e, node) => e.calls node

theorem Edges.forM_calls (e : Edges) (node : Nat) :
    (e.calls node).forM ForestCall.onPacked = PackedEdit.addEdges node e := by
  have hone (call : ForestCall) : forM [call] ForestCall.onPacked = call.onPacked := by
    rw [List.forM_cons, List.forM_nil, bind_pure_unit]
  unfold Edges.calls PackedEdit.addEdges
  rw [List.forM_eq_forM, List.forM_append]
  cases e.owned.isEmpty with
  | true =>
    cases e.shared.isEmpty with
    | true => rfl
    | false => exact hone _
  | false =>
    cases e.shared.isEmpty with
    | true => exact congrArg (· >>= fun _ => pure ()) (hone _)
    | false => exact congrArg₂ (fun x y => x >>= fun _ => y) (hone _) (hone _)

namespace PackedForest

variable {s : PackedForest} {f : Forest} {g : EdgeLists}

/-! ## Edges node by node -/

theorem Stores.addEdges_agrees (h : s.Stores f) (node : Nat) (e : Edges) :
    Agree (PackedEdit.addEdges node e) s (ForestEdit.addEdges node e) f
      fun _ s' _ f' => s'.Stores f' := by
  have hshared {s' : PackedForest} {f' : Forest} (h' : s'.Stores f') :
      Agree (if e.shared.isEmpty then pure () else PackedEdit.addShared node e.shared) s'
        (if e.shared.isEmpty then pure () else ForestEdit.addShared node e.shared) f'
        fun _ s'' _ f'' => s''.Stores f'' := by
    cases e.shared.isEmpty with
    | true => exact .pure h'
    | false => exact h'.addShared_agrees node e.shared
  unfold PackedEdit.addEdges ForestEdit.addEdges
  cases e.owned.isEmpty with
  | true => exact hshared h
  | false => exact (h.addChildren_agrees node e.owned).bind fun _ _ _ _ h' => hshared h'

/-- Edge lists can be packed if and only if they can become a forest, and then the one stores what the
other answers. -/
theorem ofEdgeLists?_agrees (g : EdgeLists) :
    (∃ s f, ofEdgeLists? g = .ok s ∧ Forest.ofEdgeLists? g = .ok f ∧ s.Stores f) ∨
      ∃ v, ofEdgeLists? g = .error v ∧ Forest.ofEdgeLists? g = .error v := by
  have hagree := Agree.forM (l := g.toList.zipIdx)
    (f := fun (e, node) => PackedEdit.addEdges node e)
    (g := fun (e, node) => ForestEdit.addEdges node e)
    (I := fun _ (s : PackedForest) (f : Forest) => s.Stores f) (Stores.ofNodes g.size)
    fun _ item _ _ _ _ h => h.addEdges_agrees item.2 item.1
  unfold ofEdgeLists? Forest.ofEdgeLists? EStateM.run
  obtain ⟨_, s, _, f, hs, hf, h⟩ | ⟨v, _, _, hs, hf⟩ := hagree.cases
  · rw [hs, hf]
    exact .inl ⟨s, f, rfl, rfl, h⟩
  · rw [hs, hf]
    exact .inr ⟨v, rfl, rfl⟩

/-- What edge lists become when they are packed has their edges. -/
theorem of_ofEdgeLists? (h : ofEdgeLists? g = .ok s) :
    ∃ f, Forest.ofEdgeLists? g = .ok f ∧ s.Stores f ∧ f.Bakes g := by
  obtain ⟨s', f, hs, hf, hstores⟩ | ⟨v, hs, -⟩ := ofEdgeLists?_agrees g
  · cases hs.symm.trans h
    obtain ⟨f', hf', hbakes⟩ := (EdgeLists.WF.of_bakes hf).bakes
    cases hf.symm.trans hf'
    exact ⟨f, hf, hstores, hbakes⟩
  · cases hs.symm.trans h

/-- Edge lists can be packed if they are in order, and only then. -/
theorem exists_ofEdgeLists?_iff : (∃ s, ofEdgeLists? g = .ok s) ↔ g.WF := by
  constructor
  · rintro ⟨s, hs⟩
    obtain ⟨f, hf, -⟩ := of_ofEdgeLists? hs
    exact .of_bakes hf
  · intro hwf
    obtain ⟨f, hf, -⟩ := hwf.bakes
    obtain ⟨s, _, hs, -⟩ | ⟨v, -, hf'⟩ := ofEdgeLists?_agrees g
    · exact ⟨s, hs⟩
    · cases hf.symm.trans hf'

/-- To pack edge lists is to make calls that all succeed. -/
theorem ofEdgeLists?_eq_ok_iff : ofEdgeLists? g = .ok s ↔
    (g.calls.forM ForestCall.onPacked).run (ofNodes g.size) = .ok () s := by
  unfold ofEdgeLists? EdgeLists.calls
  simp only [forM_flatMap, Edges.forM_calls]
  split
  · rename_i hok
    rw [hok]
    simp
  · rename_i herror
    rw [herror]
    simp

/-- Edge lists that calls have made, some of which may have failed, can be packed if and only if no
node is twice among the children of all nodes. What they become has the same nodes and the same lists,
and as many edges in all. It answers as the forest that the same lists become. -/
theorem ofEdgeLists?_iff (calls : List EdgeCall) (g : EdgeLists)
    (hg : stateAfterAll EdgeCall.edit calls #[] = g) :
    ((∃ s, ofEdgeLists? g = .ok s) ↔
        ((List.range g.size).flatMap fun n => (g.owned n).toList).Nodup) ∧
      ∀ s, ofEdgeLists? g = .ok s → s.size = g.size ∧
        (∀ n, s.children n = g.owned n ∧ s.shared n = g.shared n) ∧
        s.numOwned = g.numOwned ∧ s.numShared = g.numShared ∧
        ∃ f, Forest.ofEdgeLists? g = .ok f ∧ s.Mirrors f := by
  have hinside : g.Inside := hg ▸ EdgeLists.inside_stateAfterAll calls
  refine ⟨exists_ofEdgeLists?_iff.trans hinside.wf_iff, fun s hs => ?_⟩
  obtain ⟨f, hf, hstores, hbakes⟩ := of_ofEdgeLists? hs
  have hmirrors := hstores.mirrors
  refine ⟨hmirrors.size.trans hbakes.size, fun n => ⟨?_, ?_⟩, ?_, ?_, f, hf, hmirrors⟩
  · exact (hmirrors.children n).trans (hbakes.children n)
  · exact (hmirrors.shared n).trans (hbakes.shared n)
  · rw [hmirrors.numOwned, Forest.numOwned_eq_sum, EdgeLists.numOwned_eq_sum, hbakes.size]
    simp only [hbakes.children]
  · rw [hmirrors.numShared, Forest.numShared_eq_sum, EdgeLists.numShared_eq_sum, hbakes.size]
    simp only [hbakes.shared]

/-- The removal of nodes 1 and 7 fails, but takes node 1 away; node 2 is owned twice until it is taken
away, too. Node 1 owns the root. -/
theorem ofEdgeLists?_iff_removed :
    let calls : List EdgeCall := [.restart 2, .pushNode, .pushNode, .addOwned 0 3, .addOwned 0 1,
      .addOwned 0 2, .addOwned 3 2, .addOwned 1 0, .addShared 1 1, .addShared 1 0, .addOwned 0 7,
      .removeOwned 0 [1, 7], .removeOwned 0 [2]]
    let g := stateAfterAll EdgeCall.edit calls #[]
    ((List.range g.size).flatMap fun n => (g.owned n).toList) = [3, 0, 2] ∧
      ∃ s, ofEdgeLists? g = .ok s ∧ s.size = g.size ∧ s.children 0 = g.owned 0 ∧
        s.shared 1 = g.shared 1 ∧ s.numOwned = g.numOwned ∧ g.numOwned = 3 := by
  intro calls g
  have hall : ((List.range g.size).flatMap fun n => (g.owned n).toList) = [3, 0, 2] := by decide
  obtain ⟨hiff, hsame⟩ := ofEdgeLists?_iff calls g rfl
  obtain ⟨s, hs⟩ := hiff.mpr (by rw [hall]; decide)
  obtain ⟨hsize, hlists, hnum, -⟩ := hsame s hs
  exact ⟨hall, s, hs, hsize, (hlists 0).1, (hlists 1).2, hnum, by decide⟩

end PackedForest

end CaptureForest
