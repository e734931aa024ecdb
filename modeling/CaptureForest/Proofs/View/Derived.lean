import CaptureForest.Proofs.View.EdgeLists
import CaptureForest.View.Derived

/-! # Derived views

The edges that `EdgeLists.without` and `EdgeLists.merged` keep. Neither of them adds an owned edge
or a node, and the shared children come from the view that was derived from. -/

namespace CaptureForest.EdgeLists

variable {g : EdgeLists} {n c : Nat}

/-! ## Leaving out nodes -/

variable {drop : Nat → Bool}

@[simp]
theorem size_without : (g.without drop).size = g.size := by simp [without]

theorem owned_without :
    ((g.without drop).owned n).toList =
      if drop n then [] else (g.owned n).toList.filter fun child => !drop child := by
  unfold without owned
  rw [Array.getElem?_mapIdx]
  cases g[n]? with
  | none => simp
  | some e => by_cases h : drop n <;> simp [h]

theorem shared_without :
    (g.without drop).shared n = if drop n then #[] else g.shared n := by
  unfold without shared
  rw [Array.getElem?_mapIdx]
  cases g[n]? with
  | none => simp
  | some e => by_cases h : drop n <;> simp [h]

/-! ## Merging calls -/

variable {classify : Nat → CallClass}

/-- What the visit of a child adds to a merge. -/
theorem visit_spec (g : EdgeLists) (classify : Nat → CallClass) (child : Nat) {m : Merge}
    (hcarried : ∀ c ∈ m.carried, ∃ a, c ∈ g.shared a)
    (hshared : ∀ a, ∀ c ∈ m.lists.shared a, ∃ b, c ∈ g.shared b) :
    let m' := m.visit g classify child
    (∀ c ∈ m'.carried, ∃ a, c ∈ g.shared a) ∧
      m'.kept.toList = m.kept.toList ++ [child].filter (classify · ≠ .stateCall) ∧
      m'.lists.size = m.lists.size ∧ (∀ a, m'.lists.owned a = m.lists.owned a) ∧
      ∀ a, ∀ c ∈ m'.lists.shared a, ∃ b, c ∈ g.shared b := by
  have hboth : ∀ c ∈ m.carried ++ g.shared child, ∃ a, c ∈ g.shared a := fun c hc =>
    (Array.mem_append.mp hc).elim (hcarried c) fun hc => ⟨child, hc⟩
  unfold Merge.visit
  cases hk : classify child with
  | stateCall => exact ⟨hboth, by simp [hk], rfl, fun _ => rfl, hshared⟩
  | noCall => exact ⟨by simp, by simp [hk], rfl, fun _ => rfl, hshared⟩
  | eventCall =>
    dsimp only
    split
    · exact ⟨hcarried, by simp [hk], rfl, fun _ => rfl, hshared⟩
    · refine ⟨by simp, by simp [hk], size_setShared, fun _ => owned_setShared, fun a c hc => ?_⟩
      exact (mem_shared_setShared hc).elim (hboth c) (hshared a c)

/-- What the visits of some children add to a merge. -/
theorem foldl_visit (g : EdgeLists) (classify : Nat → CallClass) (children : List Nat) (m : Merge)
    (hcarried : ∀ c ∈ m.carried, ∃ a, c ∈ g.shared a)
    (hshared : ∀ a, ∀ c ∈ m.lists.shared a, ∃ b, c ∈ g.shared b) :
    let m' := children.foldl (Merge.visit g classify) m
    m'.kept.toList = m.kept.toList ++ children.filter (classify · ≠ .stateCall) ∧
      m'.lists.size = m.lists.size ∧ (∀ a, m'.lists.owned a = m.lists.owned a) ∧
      ∀ a, ∀ c ∈ m'.lists.shared a, ∃ b, c ∈ g.shared b := by
  induction children generalizing m with
  | nil => simpa using hshared
  | cons child children ih =>
    obtain ⟨hcarried', hkept, hsize, howned, hshared'⟩ :=
      visit_spec g classify child hcarried hshared
    obtain ⟨h1, h2, h3, h4⟩ := ih (m.visit g classify child) hcarried' hshared'
    refine ⟨?_, h2.trans hsize, fun a => (h3 a).trans (howned a), h4⟩
    rw [List.foldl_cons, h1, hkept, List.append_assoc, ← List.filter_append, List.singleton_append]

/-- The edges of a merge, after one more node. -/
theorem mergeNode_spec (g : EdgeLists) (classify : Nat → CallClass) {node : Nat}
    {lists : EdgeLists} (hsize : lists.size = g.size) (hnode : node < g.size)
    (hshared : ∀ a, ∀ c ∈ lists.shared a, ∃ b, c ∈ g.shared b) :
    let lists' := g.mergeNode classify lists node
    lists'.size = g.size ∧ (∀ a, ∀ c ∈ lists'.shared a, ∃ b, c ∈ g.shared b) ∧
      ∀ a, (lists'.owned a).toList = if a = node ∧ classify a ≠ .stateCall then
        (g.owned a).toList.filter (classify · ≠ .stateCall) else (lists.owned a).toList := by
  intro lists'
  by_cases hk : classify node = .stateCall
  · have hm : lists' = lists := if_pos hk
    rw [hm]
    refine ⟨hsize, hshared, fun a => ?_⟩
    by_cases ha : a = node
    · subst ha; simp [hk]
    · simp [ha]
  · obtain ⟨hkept, hsize', howned, hshared'⟩ := foldl_visit g classify
      (g.owned node).toList { lists } (by simp) hshared
    have hm : lists' =
        ((g.owned node).toList.foldl (Merge.visit g classify) { lists }).lists.setOwned node
          ((g.owned node).toList.foldl (Merge.visit g classify) { lists }).kept := by
      rw [Array.foldl_toList]
      exact if_neg hk
    rw [hm]
    refine ⟨?_, fun a c hc => ?_, fun a => ?_⟩
    · rw [size_setOwned, hsize']
      exact hsize
    · rw [shared_setOwned] at hc
      exact hshared' a c hc
    · rw [owned_setOwned (by rw [hsize']; exact hsize ▸ hnode), howned]
      by_cases ha : a = node
      · subst ha
        rw [if_pos rfl, if_pos ⟨rfl, hk⟩, hkept]
        rfl
      · simp [ha]

/-- The edges of a merge, after some nodes. -/
theorem foldl_mergeNode (g : EdgeLists) (classify : Nat → CallClass) (nodes : List Nat)
    (lists : EdgeLists) (hsize : lists.size = g.size) (hlt : ∀ a ∈ nodes, a < g.size)
    (hshared : ∀ a, ∀ c ∈ lists.shared a, ∃ b, c ∈ g.shared b) :
    let lists' := nodes.foldl (g.mergeNode classify) lists
    lists'.size = g.size ∧ (∀ a, ∀ c ∈ lists'.shared a, ∃ b, c ∈ g.shared b) ∧
      ∀ a, (lists'.owned a).toList = if a ∈ nodes ∧ classify a ≠ .stateCall then
        (g.owned a).toList.filter (classify · ≠ .stateCall) else (lists.owned a).toList := by
  induction nodes generalizing lists with
  | nil => exact ⟨hsize, hshared, by simp⟩
  | cons node nodes ih =>
    obtain ⟨hsize', hshared', howned⟩ :=
      mergeNode_spec g classify hsize (hlt node List.mem_cons_self) hshared
    obtain ⟨h1, h2, h3⟩ := ih _ hsize' (fun a ha => hlt a (List.mem_cons_of_mem _ ha)) hshared'
    refine ⟨h1, h2, fun a => (h3 a).trans ?_⟩
    rw [howned]
    by_cases ha : a = node
    · subst ha; by_cases hk : classify a = .stateCall <;> simp [hk]
    · simp [ha]

/-- What a merge makes of a view: a call without work has no children, the others keep their
children with work, and shared children only move. -/
theorem merged_spec (g : EdgeLists) (classify : Nat → CallClass) :
    (g.merged classify).size = g.size ∧
      (∀ a, ∀ c ∈ (g.merged classify).shared a, ∃ b, c ∈ g.shared b) ∧
      ∀ a, ((g.merged classify).owned a).toList = if classify a = .stateCall then [] else
        (g.owned a).toList.filter (classify · ≠ .stateCall) := by
  let start : EdgeLists := g.mapIdx fun node e =>
    if classify node = .stateCall then {} else { shared := e.shared }
  have hstart : ∀ a, start[a]? = g[a]?.map fun e =>
      if classify a = .stateCall then {} else { shared := e.shared } :=
    fun a => Array.getElem?_mapIdx
  have howned : ∀ a, start.owned a = #[] := by
    intro a
    rw [owned, hstart, Option.map_map]
    cases g[a]? with
    | none => rfl
    | some e => by_cases h : classify a = .stateCall <;> simp [h]
  have hshared : ∀ a, ∀ c ∈ start.shared a, ∃ b, c ∈ g.shared b := by
    intro a c hc
    refine ⟨a, ?_⟩
    rw [shared, hstart, Option.map_map] at hc
    rw [shared]
    cases hg : g[a]? with
    | none => simp [hg] at hc
    | some e => by_cases h : classify a = .stateCall <;> simp_all
  obtain ⟨h1, h2, h3⟩ := foldl_mergeNode g classify (List.range g.size) start
    (by simp [start]) (by simp) hshared
  refine ⟨h1, h2, fun a => (h3 a).trans ?_⟩
  rw [howned]
  by_cases ha : a < g.size
  · by_cases hk : classify a = .stateCall <;> simp [ha, hk]
  · have : g.owned a = #[] := by rw [owned, Array.getElem?_eq_none (by omega)]; rfl
    simp [ha, this]

/-- The visit of a child changes the shared children of that child only, if it is a call that does
work. -/
theorem shared_visit {a child : Nat} {m : Merge} (ha : classify a ≠ .eventCall) :
    (m.visit g classify child).lists.shared a = m.lists.shared a := by
  unfold Merge.visit
  cases hk : classify child with
  | stateCall | noCall => rfl
  | eventCall =>
    have hne : child ≠ a := by
      rintro rfl
      exact ha hk
    dsimp only
    split
    · rfl
    · exact shared_setShared_of_ne hne

theorem shared_mergeNode {a node : Nat} {lists : EdgeLists} (ha : classify a ≠ .eventCall) :
    (g.mergeNode classify lists node).shared a = lists.shared a := by
  have hvisits (children : List Nat) (m : Merge) :
      (children.foldl (Merge.visit g classify) m).lists.shared a = m.lists.shared a := by
    induction children generalizing m with
    | nil => rfl
    | cons child children ih => rw [List.foldl_cons, ih, shared_visit ha]
  unfold mergeNode
  split
  · rfl
  · dsimp only
    rw [shared_setOwned, ← Array.foldl_toList, hvisits]

/-- A call without work shares nothing after a merge, and a node that is no call what it shared
before. -/
theorem shared_merged {a : Nat} (ha : classify a ≠ .eventCall) :
    (g.merged classify).shared a = if classify a = .stateCall then #[] else g.shared a := by
  have hnodes (nodes : List Nat) (lists : EdgeLists) :
      (nodes.foldl (g.mergeNode classify) lists).shared a = lists.shared a := by
    induction nodes generalizing lists with
    | nil => rfl
    | cons node nodes ih => rw [List.foldl_cons, ih, shared_mergeNode ha]
  unfold merged
  dsimp only
  rw [hnodes, shared, Array.getElem?_mapIdx, shared]
  cases hg : g[a]? with
  | none => simp
  | some e => by_cases h : classify a = .stateCall <;> simp [h]

end CaptureForest.EdgeLists
