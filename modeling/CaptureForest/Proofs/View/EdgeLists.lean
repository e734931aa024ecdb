import CaptureForest.Proofs.Action
import CaptureForest.View.EdgeLists

/-! # Edits of edge lists

What each edit does to the children of every node. A removal takes out the wanted children if they
stand in the list in that order (`EdgeEdit.Removal.run_wanted`), and leaves the others as they
stood (`EdgeEdit.Removal.run_kept`). -/

namespace CaptureForest

namespace EdgeLists

variable {g : EdgeLists} {n m c : Nat} {children : Array Nat}

theorem lt_of_mem_owned (h : c ∈ g.owned n) : n < g.size := by
  refine Nat.lt_of_not_le fun hn => ?_
  rw [owned, Array.getElem?_eq_none hn] at h
  simp at h

theorem lt_of_mem_shared (h : c ∈ g.shared n) : n < g.size := by
  refine Nat.lt_of_not_le fun hn => ?_
  rw [shared, Array.getElem?_eq_none hn] at h
  simp at h

@[simp]
theorem owned_empty : owned #[] n = #[] := by simp [owned]

@[simp]
theorem shared_empty : shared #[] n = #[] := by simp [shared]

@[simp]
theorem size_pushNode : g.pushNode.size = g.size + 1 := Array.size_push _

@[simp]
theorem owned_pushNode : g.pushNode.owned n = g.owned n := by
  unfold pushNode owned
  rw [Array.getElem?_push]
  split
  · rename_i h
    rw [h, Array.getElem?_eq_none (Nat.le_refl _)]
    rfl
  · rfl

@[simp]
theorem shared_pushNode : g.pushNode.shared n = g.shared n := by
  unfold pushNode shared
  rw [Array.getElem?_push]
  split
  · rename_i h
    rw [h, Array.getElem?_eq_none (Nat.le_refl _)]
    rfl
  · rfl

@[simp]
theorem size_setOwned : (g.setOwned n children).size = g.size := Array.size_modify

theorem owned_setOwned (hn : n < g.size) :
    (g.setOwned n children).owned m = if m = n then children else g.owned m := by
  unfold setOwned owned
  rw [Array.getElem?_modify]
  by_cases h : n = m
  · subst h
    simp [Array.getElem?_eq_getElem hn]
  · simp [h, Ne.symm h]

@[simp]
theorem shared_setOwned : (g.setOwned n children).shared m = g.shared m := by
  unfold setOwned shared
  rw [Array.getElem?_modify]
  split
  · rw [Option.map_map]; rfl
  · rfl

@[simp]
theorem size_setShared : (g.setShared n children).size = g.size := Array.size_modify

@[simp]
theorem owned_setShared : (g.setShared n children).owned m = g.owned m := by
  unfold setShared owned
  rw [Array.getElem?_modify]
  split
  · rw [Option.map_map]; rfl
  · rfl

theorem shared_setShared_of_ne (h : n ≠ m) : (g.setShared n children).shared m = g.shared m := by
  unfold setShared shared
  rw [Array.getElem?_modify, if_neg h]

theorem mem_shared_setShared (h : c ∈ (g.setShared n children).shared m) :
    c ∈ children ∨ c ∈ g.shared m := by
  unfold setShared shared at h
  unfold shared
  rw [Array.getElem?_modify] at h
  split at h
  · cases hg : g[m]? with
    | none => simp [hg] at h
    | some e => exact .inl (by simpa [hg] using h)
  · exact .inr h

end EdgeLists

/-! ## Edges one by one -/

/-- Edges in the order in which they are added, each as a node and its child. -/
abbrev EdgeLog := List (Nat × Nat)

/-- The children that the edges give to a node. -/
def EdgeLog.children (log : EdgeLog) (node : Nat) : List Nat :=
  (log.filter (·.1 == node)).map (·.2)

namespace EdgeLog

variable {log more : EdgeLog} {n m c : Nat}

@[simp]
theorem children_nil : children [] n = [] := rfl

@[simp]
theorem children_append : children (log ++ more) n = log.children n ++ more.children n := by
  simp [children]

theorem children_cons :
    children ((m, c) :: log) n = if m = n then c :: log.children n else log.children n := by
  unfold children
  rw [List.filter_cons]
  by_cases h : m = n <;> simp [h]

@[simp]
theorem mem_children : c ∈ log.children n ↔ (n, c) ∈ log := by
  simp [children]

/-- The edges from a node to some others. -/
@[simp]
theorem children_fan {l : List Nat} : children (l.map (n, ·)) n = l := by
  induction l with
  | nil => rfl
  | cons c l ih => rw [List.map_cons, children_cons, if_pos rfl, ih]

/-- The edges from some nodes to another. -/
theorem children_map_left {l : List Nat} (h : l.Nodup) :
    children (l.map (·, c)) n = if n ∈ l then [c] else [] := by
  induction l with
  | nil => rfl
  | cons m l ih =>
    obtain ⟨hm, hl⟩ := List.nodup_cons.mp h
    rw [List.map_cons, children_cons, ih hl]
    by_cases hmn : m = n
    · subst hmn
      simp [hm]
    · simp [hmn, Ne.symm hmn]

end EdgeLog

namespace EdgeLists

/-- The lists `g'` have the given edges behind those of `g`. -/
structure Gains (g g' : EdgeLists) (owned shared : EdgeLog) : Prop where
  size : g'.size = g.size
  owned : ∀ n, (g'.owned n).toList = (g.owned n).toList ++ owned.children n
  shared : ∀ n, (g'.shared n).toList = (g.shared n).toList ++ shared.children n

end EdgeLists

/-! ## Single edits -/

namespace EdgeEdit

variable {g : EdgeLists} {n c : Nat}

open EdgeLists

theorem addOwned_succeeds (hn : n < g.size) (hc : c < g.size) :
    Succeeds (addOwned n c) g fun _ g' => g.Gains g' [(n, c)] [] := by
  refine Leads.intro (if_pos ⟨hn, hc⟩) ⟨Array.size_modify, fun m => ?_, fun m => ?_⟩
  · unfold owned
    rw [Array.getElem?_modify, EdgeLog.children_cons]
    by_cases h : n = m
    · subst h; simp [Array.getElem?_eq_getElem hn]
    · simp [h]
  · unfold shared
    rw [Array.getElem?_modify]
    split
    · simp [Function.comp_def]
    · simp

theorem addShared_succeeds (hn : n < g.size) (hc : c < g.size) :
    Succeeds (addShared n c) g fun _ g' => g.Gains g' [] [(n, c)] := by
  refine Leads.intro (if_pos ⟨hn, hc⟩) ⟨Array.size_modify, fun m => ?_, fun m => ?_⟩
  · unfold owned
    rw [Array.getElem?_modify]
    split
    · simp [Function.comp_def]
    · simp
  · unfold shared
    rw [Array.getElem?_modify, EdgeLog.children_cons]
    by_cases h : n = m
    · subst h; simp [Array.getElem?_eq_getElem hn]
    · simp [h]

/-! ## Removals -/

namespace Removal

/-- A removal, on lists. -/
theorem foldl_visit (list : List Nat) (r : Removal) :
    ∃ kept, (list.foldl visit r).kept.toList = r.kept.toList ++ kept ∧
      kept.Sublist list ∧ ∃ found, r.wanted = found ++ (list.foldl visit r).wanted ∧
        (kept ++ found).Perm list ∧ (r.wanted.Sublist list → (list.foldl visit r).wanted = []) := by
  induction list generalizing r with
  | nil => exact ⟨[], by simp, .refl _, [], rfl, .refl _, fun h => by simpa using h⟩
  | cons a list ih =>
    rw [List.foldl_cons]
    obtain ⟨kept, wanted⟩ := r
    match wanted with
    | [] =>
      obtain ⟨k, hk, hsub, found, hf, hperm, hw⟩ := ih { kept := kept.push a, wanted := [] }
      exact ⟨a :: k, by simpa [visit] using hk, hsub.cons_cons a, found, hf, hperm.cons a,
        fun _ => hw (List.nil_sublist _)⟩
    | w :: ws =>
      by_cases hwa : w = a
      · subst hwa
        obtain ⟨k, hk, hsub, found, hf, hperm, hw⟩ := ih { kept, wanted := ws }
        refine ⟨k, by simpa [visit] using hk, hsub.cons w, w :: found, ?_, ?_, fun h => ?_⟩
        · simpa [visit] using hf
        · exact List.perm_middle.trans (hperm.cons w)
        · simpa [visit] using hw (List.cons_sublist_cons.mp h)
      · obtain ⟨k, hk, hsub, found, hf, hperm, hw⟩ := ih { kept := kept.push a, wanted := w :: ws }
        refine ⟨a :: k, by simpa [visit, hwa] using hk, hsub.cons_cons a, found,
          by simpa [visit, hwa] using hf, hperm.cons a, fun h => ?_⟩
        have hrest : (w :: ws).Sublist list := by
          cases h with
          | cons _ h => exact h
          | cons_cons => exact absurd rfl hwa
        simpa [visit, hwa] using hw hrest

variable {wanted : List Nat} {list : Array Nat}

/-- A removal adds nothing. -/
theorem mem_of_mem_kept {c : Nat} (h : c ∈ (run wanted list).kept) : c ∈ list := by
  obtain ⟨kept, hk, hsub, -⟩ := foldl_visit list.toList { wanted }
  rw [Array.foldl_toList, List.nil_append] at hk
  rw [Array.mem_def, run, hk] at h
  exact Array.mem_def.mpr (hsub.subset h)

/-- Wanted children that stand in the list in their order are all found. -/
theorem run_wanted (h : wanted.Sublist list.toList) : (run wanted list).wanted = [] := by
  obtain ⟨_, _, _, _, _, _, hw⟩ := foldl_visit list.toList { wanted }
  rw [run, ← Array.foldl_toList]
  exact hw h

/-- A removal from a list without repetitions keeps the children that are not wanted. -/
theorem run_kept (h : wanted.Sublist list.toList) (hnd : list.toList.Nodup) :
    (run wanted list).kept.toList = list.toList.filter (· ∉ wanted) := by
  obtain ⟨kept, hk, hsub, found, hf, hperm, hw⟩ := foldl_visit list.toList { wanted }
  rw [hw h, List.append_nil] at hf
  subst hf
  rw [Array.foldl_toList] at hk
  rw [run, hk, List.nil_append]
  have hdisj := (List.nodup_append.mp (hperm.nodup_iff.mpr hnd)).2.2
  have hself : kept.filter (· ∉ wanted) = kept :=
    List.filter_eq_self.mpr fun a ha => by simpa using fun hw => hdisj a ha a hw rfl
  have hlen := (hperm.filter (· ∉ wanted)).length_eq
  rw [List.filter_append, hself, List.filter_eq_nil_iff.mpr (by simp), List.append_nil] at hlen
  exact List.Sublist.eq_of_length (hself ▸ hsub.filter _) hlen

end Removal

theorem removeOwned_succeeds {wanted : List Nat} (hn : n < g.size)
    (h : wanted.Sublist (g.owned n).toList) :
    Succeeds (removeOwned n wanted) g fun _ g' =>
      g' = g.setOwned n (Removal.run wanted (g.owned n)).kept := by
  refine Leads.intro (a := ()) ?_ rfl
  unfold removeOwned
  rw [if_pos hn]
  simp [Removal.run_wanted h]

end EdgeEdit

end CaptureForest
