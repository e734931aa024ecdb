import CaptureForest.Proofs.Pass.Renaming

/-! # A pass in other numbers

`Pass.Renames R p p'` says that `p'` is `p` in the numbers that `R` gives: what they remember, their
nodes and their edges are the same but for the numbers. The two may differ in the owned edges of
exempt nodes, and `p'` may have nodes of its own, without edges. The relation is kept when both
grow alike (`Renames.regroups`, `Renames.adds`). -/

namespace CaptureForest

variable {R : Renaming} {n m : Nat}

/-! ## Edges -/

namespace EdgeLog

variable {log : EdgeLog}

def renamed (R : Renaming) (log : EdgeLog) : EdgeLog := log.map fun e => (R e.1, R e.2)

theorem children_renamed : (log.renamed R).children (R n) = (log.children n).map R := by
  induction log with
  | nil => rfl
  | cons e log ih =>
    obtain ⟨a, b⟩ := e
    rw [renamed, List.map_cons, children_cons, children_cons]
    simp only [R.inj.eq_iff]
    split
    · rw [List.map_cons]
      exact congrArg (R b :: ·) ih
    · exact ih

theorem children_renamed_of_ne (hm : ∀ n, R n ≠ m) : (log.renamed R).children m = [] := by
  refine List.eq_nil_iff_forall_not_mem.mpr fun c hc => ?_
  obtain ⟨e, -, heq⟩ := List.mem_map.mp (mem_children.mp hc)
  exact hm e.1 (congrArg Prod.fst heq)

theorem renamed_fan {l : List Nat} :
    EdgeLog.renamed R (l.map (n, ·)) = (l.map R).map (R n, ·) := by
  simp [renamed]

theorem renamed_map_left {l : List Nat} :
    EdgeLog.renamed R (l.map (·, n)) = (l.map R).map (·, R n) := by
  simp [renamed]

end EdgeLog

namespace Links

variable {l l' : Links} {views : List View} {log : EdgeLog}

def renamed (R : Renaming) (l : Links) : Links := fun v => (l v).renamed R

@[simp]
theorem renamed_none : none.renamed R = none := rfl

theorem renamed_on : (on views log).renamed R = on views (log.renamed R) :=
  funext fun v => by
    simp only [renamed, on_apply]
    split <;> rfl

theorem renamed_append : (l ++ l').renamed R = l.renamed R ++ l'.renamed R :=
  funext fun _ => List.map_append

/-- The edges `l'` are the edges `l` in other numbers, but for those of exempt owners. -/
structure Carries (R : Renaming) (nodes : Nodes) (l l' : Links) : Prop where
  children : ∀ {v n}, (∀ k, nodes.kind? n = some k → R.exempt v k = false) →
    (l' v).children (R n) = ((l v).children n).map R
  bare : ∀ {v m}, (∀ n, R n ≠ m) → (l' v).children m = []

theorem carries_renamed {nodes : Nodes} : Carries R nodes l (l.renamed R) where
  children _ := EdgeLog.children_renamed
  bare hm := EdgeLog.children_renamed_of_ne hm

end Links

namespace Pass

variable {p p' q q' : Pass} {moved : List Nat} {new : List Node} {owned owned' shared : Links}

/-- The pass `p'` is the pass `p` in other numbers. -/
structure Renames (R : Renaming) (p p' : Pass) : Prop where
  recalls : p.Recalls R p'
  sized : p.Sized
  sized' : p'.Sized
  /-- The nodes that come next have numbers that come next. -/
  fresh : ∀ i, R (p.nodes.size + i) = p'.nodes.size + i
  nodes : ∀ n, p'.nodes[R n]? = p.nodes[n]?
  owned : ∀ {v n}, (∀ k, p.nodes.kind? n = some k → R.exempt v k = false) →
    p'.owned v (R n) = (p.owned v n).map R
  shared : ∀ v n, p'.shared v (R n) = (p.shared v n).map R
  bare : ∀ {m}, (∀ n, R n ≠ m) → ∀ v, p'.owned v m = [] ∧ p'.shared v m = []

namespace Renames

theorem size_eq (h : p.Renames R p') : p'.nodes.size = R p.nodes.size := (h.fresh 0).symm

theorem kind?_eq (h : p.Renames R p') (n : Nat) : p'.nodes.kind? (R n) = p.nodes.kind? n := by
  rw [Nodes.kind?, h.nodes, Nodes.kind?]

theorem lt_iff (h : p.Renames R p') : R n < p'.nodes.size ↔ n < p.nodes.size := by
  rw [← not_iff_not, Nat.not_lt, Nat.not_lt, ← Array.getElem?_eq_none_iff, h.nodes,
    Array.getElem?_eq_none_iff]

/-- Passes that grow alike stay alike. -/
theorem regroups (h : p.Renames R p') (hq : p.Regroups q moved new owned shared)
    (hq' : p'.Regroups q' (moved.map R) new owned' (shared.renamed R))
    (howned : Links.Carries R q.nodes owned owned') (hrecalls : q.Recalls R q') :
    q.Renames R q' where
  recalls := hrecalls
  sized := hq.sized
  sized' := hq'.sized
  fresh i := by
    rw [hq.nodes, hq'.nodes, Nodes.size_append_list, Nodes.size_append_list, Nat.add_assoc, h.fresh,
      Nat.add_assoc]
  nodes n := by
    rw [hq.nodes, hq'.nodes]
    rcases Nat.lt_or_ge n p.nodes.size with hlt | hge
    · rw [Nodes.getElem?_append_old hlt, Nodes.getElem?_append_old (h.lt_iff.mpr hlt), h.nodes]
    · obtain ⟨i, rfl⟩ := Nat.exists_eq_add_of_le hge
      rw [h.fresh, Nodes.getElem?_append_new, Nodes.getElem?_append_new]
  owned {v n} hexempt := by
    have hold : p'.owned v (R n) = (p.owned v n).map R := by
      rcases Nat.lt_or_ge n p.nodes.size with hlt | hge
      · refine h.owned fun k hk => hexempt k ?_
        rw [hq.nodes]
        exact Nodes.kind?_append hk
      · have hge' : p'.nodes.size ≤ R n := Nat.le_of_not_lt fun hlt =>
          absurd (h.lt_iff.mp hlt) (Nat.not_lt.mpr hge)
        rw [h.sized.owned_eq_nil hge, h.sized'.owned_eq_nil hge', List.map_nil]
    rw [hq.owned, hq'.owned, howned.children hexempt, hold, List.map_append]
    congr 1
    split
    · rw [List.filter_map]
      congr 1
      exact List.filter_congr fun c _ =>
        decide_eq_decide.mpr (not_congr (List.mem_map_of_injective R.inj))
    · rfl
  shared v n := by
    rw [hq.shared, hq'.shared, h.shared, List.map_append, Links.renamed, EdgeLog.children_renamed]
  bare {m} hm v := by
    obtain ⟨ho, hs⟩ := h.bare hm v
    rw [hq'.owned, hq'.shared, ho, hs, howned.bare hm, Links.renamed,
      EdgeLog.children_renamed_of_ne hm]
    simp

/-- Passes with the same new nodes and edges stay alike. -/
theorem adds {new' : List Node} {shared' : Links} (h : p.Renames R p')
    (hq : p.Adds q new owned shared) (hq' : p'.Adds q' new' owned' shared')
    (hrecalls : q.Recalls R q') (hnew : new' = new) (howned : owned' = owned.renamed R)
    (hshared : shared' = shared.renamed R) : q.Renames R q' := by
  subst hnew howned hshared
  exact h.regroups hq.regroups_nil hq'.regroups_nil Links.carries_renamed hrecalls

/-- Only what is remembered changes. -/
theorem congr (h : p.Renames R p') (hrecalls : q.Recalls R q') (hnodes : q.nodes = p.nodes)
    (hedges : q.edges = p.edges) (hnodes' : q'.nodes = p'.nodes) (hedges' : q'.edges = p'.edges) :
    q.Renames R q' := by
  have hq : p.Adds q [] .none .none := .congr (.refl h.sized) rfl rfl hnodes hedges
  have hq' : p'.Adds q' [] .none .none := .congr (.refl h.sized') rfl rfl hnodes' hedges'
  exact h.adds hq hq' hrecalls rfl rfl rfl

end Renames

end Pass

end CaptureForest
