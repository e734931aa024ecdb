import CaptureForest.Proofs.View.Bake
import CaptureForest.Proofs.View.Merged

/-! # Laws of derived views

A merge is told by what it makes of each node (`EdgeLists.IsMerged`), and if every node is owned at
most once there is only one result that fits (`EdgeLists.isMerged_iff`). To leave out nodes twice is
to leave out both kinds at once, and a merge that has been made leaves nothing to merge
(`EdgeLists.derived_laws`). -/

namespace CaptureForest.EdgeLists

variable {g h : EdgeLists} {classify : Nat → CallClass} {p q : Nat → Bool} {n a : Nat}

/-- Edge lists are told by the children of each node. -/
theorem ext_children (hsize : g.size = h.size) (howned : ∀ n, g.owned n = h.owned n)
    (hshared : ∀ n, g.shared n = h.shared n) : g = h := by
  refine Array.ext hsize fun n hn hn' => ?_
  have ho := howned n
  have hs := hshared n
  simp only [owned, shared, Array.getElem?_eq_getElem hn, Array.getElem?_eq_getElem hn',
    Option.map_some, Option.getD_some] at ho hs
  show Edges.mk g[n].owned g[n].shared = Edges.mk h[n].owned h[n].shared
  rw [ho, hs]

/-! ## What a merge gives -/

/-- Behind a sibling that stays, the calls without work are those that trail. -/
theorem trailingCalls_append {before calls : List Nat}
    (hcalls : ∀ a ∈ calls, classify a = .stateCall)
    (hbefore : ∀ a ∈ before.getLast?, classify a ≠ .stateCall) :
    trailingCalls classify (before ++ calls) = calls := by
  induction calls using List.reverseRecOn with
  | nil =>
    rw [List.append_nil, trailingCalls, List.rtakeWhile_eq_nil_iff]
    intro hne
    have hlast := hbefore _ (List.getLast?_eq_some_getLast hne)
    simpa using hlast
  | append_singleton calls a ih =>
    have hstate : classify a = .stateCall := hcalls a (by simp)
    rw [← List.append_assoc, trailingCalls,
      List.rtakeWhile_concat_pos _ _ _ (by simpa using hstate)]
    exact congrArg (· ++ [a]) (ih fun b hb => hcalls b (List.mem_append_left _ hb))

/-- Siblings end with the calls without work that trail, behind a sibling that stays if there is
one. -/
theorem exists_eq_append_trailingCalls (classify : Nat → CallClass) (siblings : List Nat) :
    ∃ before, siblings = before ++ trailingCalls classify siblings ∧
      ∀ a ∈ before.getLast?, classify a ≠ .stateCall := by
  refine ⟨siblings.rdropWhile (classify · = .stateCall),
    (List.rdropWhile_append_rtakeWhile ..).symm, fun a ha => ?_⟩
  obtain ⟨hne, rfl⟩ := List.mem_getLast?_eq_getLast ha
  have hlast := List.rdropWhile_last_not _ _ hne
  simpa using hlast

/-- The lists `h` are those of `g` with the calls without work merged into the calls that follow. -/
structure IsMerged (classify : Nat → CallClass) (g h : EdgeLists) : Prop where
  size : h.size = g.size
  /-- A call without work disappears. -/
  stateCall : ∀ {n}, classify n = .stateCall → h.owned n = #[] ∧ h.shared n = #[]
  /-- The other nodes own what they owned, the calls without work apart. -/
  owned : ∀ {n}, classify n ≠ .stateCall →
    (h.owned n).toList = (g.owned n).toList.filter (classify · ≠ .stateCall)
  noCall : ∀ {n}, classify n = .noCall → h.shared n = g.shared n
  /-- A call that does work takes what the calls without work shared that stand between it and the
  last sibling before it that stays. -/
  takes : ∀ {n p before calls after}, classify n = .eventCall → n < g.size →
    classify p ≠ .stateCall → (g.owned p).toList = before ++ calls ++ n :: after →
    (∀ a ∈ calls, classify a = .stateCall) → (∀ a ∈ before.getLast?, classify a ≠ .stateCall) →
    (h.shared n).toList = calls.flatMap (fun a => (g.shared a).toList) ++ (g.shared n).toList
  /-- A call that does work and has no such siblings keeps what it shared. -/
  keeps : ∀ {n}, classify n = .eventCall → (∀ p, n ∈ g.owned p → classify p = .stateCall) →
    h.shared n = g.shared n

theorem merged_isMerged (hnodup : ∀ n, (g.owned n).toList.Nodup)
    (honce : ∀ {a b c}, c ∈ g.owned a → c ∈ g.owned b → a = b) :
    IsMerged classify g (g.merged classify) := by
  obtain ⟨hsize, -, howned⟩ := merged_spec g classify
  refine ⟨hsize, fun {n} hn => ⟨?_, ?_⟩, fun {n} hn => ?_, fun {n} hn => ?_,
    @fun n p before calls after hn hlt hp hsplit hcalls hbefore => ?_,
    fun {n} hn hnone => shared_merged_of_not_mem hn hnone⟩
  · have hempty := howned n
    rw [if_pos hn] at hempty
    exact Array.toList_eq_nil_iff.mp hempty
  · rw [shared_merged (by simp [hn]), if_pos hn]
  · rw [howned, if_neg hn]
  · rw [shared_merged (by simp [hn]), if_neg (by simp [hn])]
  · have hmem : n ∈ g.owned p := Array.mem_def.mpr (by simp [hsplit])
    rw [shared_merged_of_mem hn hp hsplit (hnodup p) (fun m hm => honce hm hmem) hlt,
      trailingCalls_append hcalls hbefore, sharedBy_append]
    rfl

theorem IsMerged.eq {h' : EdgeLists} (hm : IsMerged classify g h) (hm' : IsMerged classify g h') :
    h = h' := by
  refine ext_children (hm.size.trans hm'.size.symm) (fun n => ?_) fun n => ?_
  · by_cases hn : classify n = .stateCall
    · rw [(hm.stateCall hn).1, (hm'.stateCall hn).1]
    · exact Array.toList_inj.mp ((hm.owned hn).trans (hm'.owned hn).symm)
  · cases hn : classify n with
    | stateCall => rw [(hm.stateCall hn).2, (hm'.stateCall hn).2]
    | noCall => rw [hm.noCall hn, hm'.noCall hn]
    | eventCall =>
      by_cases hlt : n < g.size
      · by_cases howner : ∃ p, n ∈ g.owned p ∧ classify p ≠ .stateCall
        · obtain ⟨p, hmem, hp⟩ := howner
          obtain ⟨siblings, after, hsplit⟩ := List.append_of_mem (Array.mem_def.mp hmem)
          obtain ⟨before, htrail, hbefore⟩ := exists_eq_append_trailingCalls classify siblings
          rw [htrail] at hsplit
          have htake := hm.takes hn hlt hp hsplit (fun a => of_mem_trailingCalls) hbefore
          have htake' := hm'.takes hn hlt hp hsplit (fun a => of_mem_trailingCalls) hbefore
          exact Array.toList_inj.mp (htake.trans htake'.symm)
        · have hnone : ∀ p, n ∈ g.owned p → classify p = .stateCall := fun p hmem =>
            Decidable.not_not.mp fun hp => howner ⟨p, hmem, hp⟩
          rw [hm.keeps hn hnone, hm'.keeps hn hnone]
      · rw [shared, shared, Array.getElem?_eq_none (by rw [hm.size]; omega),
          Array.getElem?_eq_none (by rw [hm'.size]; omega)]

/-- If no node is owned twice, the merge gives the lists that are told by what becomes of each node,
and no others. -/
theorem isMerged_iff (hnodup : ∀ n, (g.owned n).toList.Nodup)
    (honce : ∀ {a b c}, c ∈ g.owned a → c ∈ g.owned b → a = b) :
    IsMerged classify g h ↔ h = g.merged classify :=
  ⟨fun hm => hm.eq (merged_isMerged hnodup honce), fun heq => heq ▸ merged_isMerged hnodup honce⟩

/-- Two binds before a draw, and a bind that a label cuts off from what follows. -/
theorem isMerged_iff_label :
    let classify : Nat → CallClass := fun n =>
      if n ∈ [1, 2, 5] then .stateCall else if n = 3 then .eventCall else .noCall
    let g : EdgeLists := #[{ owned := #[1, 2, 3, 4, 5, 6] }, { shared := #[7] }, { shared := #[8] },
      { shared := #[9] }, {}, { shared := #[10] }, { shared := #[11] }]
    IsMerged classify g (g.merged classify) ∧
      ((g.merged classify).owned 0).toList = [3, 4, 6] ∧
      ((g.merged classify).shared 3).toList = [7, 8, 9] ∧
      (g.merged classify).shared 6 = #[11] := by
  intro classify g
  have hnodup (n : Nat) : (g.owned n).toList.Nodup := by
    by_cases hn : n < g.size
    · exact (show ∀ n < g.size, (g.owned n).toList.Nodup by decide) n hn
    · rw [owned, Array.getElem?_eq_none (by omega)]
      exact List.nodup_nil
  have honce {a b c : Nat} (ha : c ∈ g.owned a) (hb : c ∈ g.owned b) : a = b :=
    (show ∀ a < g.size, ∀ b < g.size, ∀ c ∈ (g.owned a).toList, c ∈ (g.owned b).toList → a = b by
      decide) a (lt_of_mem_owned ha) b (lt_of_mem_owned hb) c (Array.mem_def.mp ha)
      (Array.mem_def.mp hb)
  have hm : IsMerged classify g (g.merged classify) := (isMerged_iff hnodup honce).mpr rfl
  have hsplit : (g.owned 0).toList = [] ++ [1, 2] ++ 3 :: [4, 5, 6] := rfl
  exact ⟨hm, hm.owned (by decide),
    hm.takes (by decide) (by decide) (by decide) hsplit (by decide) (by simp),
    hm.noCall (by decide)⟩

/-! ## Derivations in a row -/

theorem without_without :
    (g.without p).without q = g.without fun n => p n || q n := by
  refine ext_children (by simp) (fun n => ?_) fun n => ?_
  · refine Array.toList_inj.mp ?_
    simp only [owned_without]
    cases p n <;> cases q n <;> simp [Bool.and_comm]
  · simp only [shared_without]
    cases p n <;> cases q n <;> simp

/-- There is nothing left to merge. -/
structure Settled (classify : Nat → CallClass) (g : EdgeLists) : Prop where
  bare : ∀ {n}, classify n = .stateCall → g.owned n = #[] ∧ g.shared n = #[]
  stays : ∀ {n c}, c ∈ g.owned n → classify c ≠ .stateCall

theorem settled_merged : Settled classify (g.merged classify) := by
  obtain ⟨-, -, howned⟩ := merged_spec g classify
  refine ⟨fun {n} hn => ⟨?_, ?_⟩, @fun n c hc => ?_⟩
  · have hempty := howned n
    rw [if_pos hn] at hempty
    exact Array.toList_eq_nil_iff.mp hempty
  · rw [shared_merged (by simp [hn]), if_pos hn]
  · rw [Array.mem_def, howned] at hc
    split at hc
    · cases hc
    · simpa using (List.mem_filter.mp hc).2

/-- Where no sibling disappears, nothing is carried, and nobody takes anything. -/
theorem shared_visits_of_stay {children : List Nat}
    (hstay : ∀ c ∈ children, classify c ≠ .stateCall) {m : Merge} (hm : m.carried = #[]) :
    (children.foldl (Merge.visit g classify) m).lists.shared a = m.lists.shared a := by
  induction children generalizing m with
  | nil => rfl
  | cons child children ih =>
    have hchild := hstay child List.mem_cons_self
    have hvisit : (m.visit g classify child).carried = #[] ∧
        (m.visit g classify child).lists = m.lists := by
      unfold Merge.visit
      cases hk : classify child with
      | stateCall => exact absurd hk hchild
      | noCall => exact ⟨rfl, rfl⟩
      | eventCall => simp [hm]
    rw [List.foldl_cons, ih (fun c hc => hstay c (List.mem_cons_of_mem _ hc)) hvisit.1, hvisit.2]

theorem Settled.shared_mergeNodes (hg : Settled classify g) (nodes : List Nat) (lists : EdgeLists) :
    (nodes.foldl (g.mergeNode classify) lists).shared a = lists.shared a := by
  induction nodes generalizing lists with
  | nil => rfl
  | cons node nodes ih =>
    rw [List.foldl_cons, ih]
    unfold mergeNode
    split
    · rfl
    · dsimp only
      rw [shared_setOwned, ← Array.foldl_toList,
        shared_visits_of_stay (fun c hc => hg.stays (Array.mem_def.mpr hc)) rfl]

/-- A merge changes nothing where there is nothing left to merge. -/
theorem Settled.merged_eq (hg : Settled classify g) : g.merged classify = g := by
  obtain ⟨hsize, -, howned⟩ := merged_spec g classify
  refine ext_children hsize (fun n => ?_) fun n => ?_
  · refine Array.toList_inj.mp ((howned n).trans ?_)
    split
    · rename_i hn
      rw [(hg.bare hn).1]
    · refine List.filter_eq_self.mpr fun c hc => ?_
      simpa using hg.stays (Array.mem_def.mpr hc)
  · by_cases hn : classify n = .eventCall
    · unfold merged
      dsimp only
      rw [hg.shared_mergeNodes, shared_start hn]
    · rw [shared_merged hn]
      split
      · rename_i hstate
        rw [(hg.bare hstate).2]
      · rfl

theorem merged_merged : (g.merged classify).merged classify = g.merged classify :=
  settled_merged.merged_eq

/-! ## Forests of derived views -/

theorem owned_without_sublist : ((g.without p).owned n).toList.Sublist (g.owned n).toList := by
  rw [owned_without]
  split
  · exact List.nil_sublist _
  · exact List.filter_sublist

theorem owned_merged_sublist :
    ((g.merged classify).owned n).toList.Sublist (g.owned n).toList := by
  rw [(merged_spec g classify).2.2]
  split
  · exact List.nil_sublist _
  · exact List.filter_sublist

/-- Lists that have no more edges than lists in order, and no other children, are in order. -/
theorem WF.of_sublist (hg : g.WF) (hsize : h.size = g.size)
    (howned : ∀ n, (h.owned n).toList.Sublist (g.owned n).toList)
    (hshared : ∀ n, ∀ c ∈ h.shared n, ∃ m, c ∈ g.shared m) : h.WF := by
  have hmem {n c : Nat} (hc : c ∈ h.owned n) : c ∈ g.owned n :=
    Array.mem_def.mpr ((howned n).subset (Array.mem_def.mp hc))
  exact {
    owned_lt := fun hc => hsize ▸ hg.owned_lt (hmem hc)
    shared_lt := fun {n c} hc =>
      let ⟨_, hc⟩ := hshared n c hc
      hsize ▸ hg.shared_lt hc
    nodup := fun n => (hg.nodup n).sublist (howned n)
    once := fun ha hb => hg.once (hmem ha) (hmem hb) }

theorem WF.without (hg : g.WF) (p : Nat → Bool) : (g.without p).WF :=
  hg.of_sublist size_without (fun _ => owned_without_sublist) fun n c hc => by
    rw [shared_without] at hc
    split at hc
    · simp at hc
    · exact ⟨n, hc⟩

theorem WF.merged (hg : g.WF) (classify : Nat → CallClass) : (g.merged classify).WF :=
  hg.of_sublist (merged_spec g classify).1 (fun _ => owned_merged_sublist)
    (merged_spec g classify).2.1

/-- Leaving out nodes twice leaves out both kinds, and merging twice is merging once. Both keep the
nodes and add no owned edge, and what is derived from lists that become a forest becomes one. -/
theorem derived_laws (g : EdgeLists) (p q : Nat → Bool) (classify : Nat → CallClass) :
    (g.without p).without q = g.without (fun n => p n || q n) ∧
    (g.merged classify).merged classify = g.merged classify ∧
    (g.without p).size = g.size ∧ (g.merged classify).size = g.size ∧
    (∀ n, ((g.without p).owned n).toList.Sublist (g.owned n).toList) ∧
    (∀ n, ((g.merged classify).owned n).toList.Sublist (g.owned n).toList) ∧
    ∀ f, Forest.ofEdgeLists? g = .ok f →
      (∃ f', Forest.ofEdgeLists? (g.without p) = .ok f' ∧ f'.Bakes (g.without p)) ∧
        ∃ f', Forest.ofEdgeLists? (g.merged classify) = .ok f' ∧ f'.Bakes (g.merged classify) := by
  refine ⟨without_without, merged_merged, size_without, (merged_spec g classify).1,
    fun _ => owned_without_sublist, fun _ => owned_merged_sublist, fun f hf => ?_⟩
  have hg := WF.of_bakes hf
  exact ⟨(hg.without p).bakes, (hg.merged classify).bakes⟩

/-- A label in whose list a bind comes before a draw. The label is left out, or the bind
merged. -/
theorem derived_laws_label :
    let classify : Nat → CallClass := fun n => if n = 2 then .stateCall else .eventCall
    let g : EdgeLists :=
      #[{ owned := #[1] }, { owned := #[2, 3] }, { shared := #[4] }, { shared := #[4] }, {}]
    ((g.without (· == 1)).without (· == 3)).owned 0 = #[] ∧
      (g.merged classify).merged classify = g.merged classify ∧
      ∃ f, Forest.ofEdgeLists? g = .ok f ∧
        (∃ f', Forest.ofEdgeLists? (g.without (· == 1)) = .ok f' ∧ f'.children 0 = #[]) ∧
        ∃ f', Forest.ofEdgeLists? (g.merged classify) = .ok f' ∧ f'.children 1 = #[3] := by
  intro classify g
  obtain ⟨hwithout, hmerged, -, -, -, -, hbakes⟩ := derived_laws g (· == 1) (· == 3) classify
  have hg : ∃ f, Forest.ofEdgeLists? g = .ok f ∧ f.size = 5 := by decide +kernel
  obtain ⟨f, hf, -⟩ := hg
  obtain ⟨⟨f₁, hf₁, h₁⟩, f₂, hf₂, h₂⟩ := hbakes f hf
  refine ⟨?_, hmerged, f, hf, ⟨f₁, hf₁, ?_⟩, f₂, hf₂, ?_⟩
  · rw [hwithout]
    decide
  · rw [h₁.children]
    decide
  · rw [h₂.children]
    decide

end CaptureForest.EdgeLists
