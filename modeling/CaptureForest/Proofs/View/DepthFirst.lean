import CaptureForest.Proofs.View.Climb

/-! # Depth-first walks

The recursive walk of a tree takes each node, then all that is below it, child by child
(`DepthFirst`). The walk of a packed forest is none: from each node it looks for the next one, by
owners and ranks. Where the root has no owner, it takes the same nodes in the same order and comes to
an end (`PackedForest.Stores.walks`), whatever other nodes own each other beside the tree. -/

namespace CaptureForest

/-- The nodes that a recursive walk takes, in order: each of `nodes`, and behind it all below it. -/
inductive DepthFirst (own : Nat → List Nat) : (nodes order : List Nat) → Prop
  | nil : DepthFirst own [] []
  | cons {n : Nat} {nodes below behind : List Nat} :
    DepthFirst own (own n) below → DepthFirst own nodes behind →
    DepthFirst own (n :: nodes) (n :: (below ++ behind))

namespace DepthFirst

variable {own : Nat → List Nat} {nodes order order' front back : List Nat} {a b c n : Nat}

/-- There is one such order. -/
theorem unique (h : DepthFirst own nodes order) (h' : DepthFirst own nodes order') :
    order = order' := by
  induction h generalizing order' with
  | nil =>
    cases h'
    rfl
  | cons _ _ ihbelow ihbehind =>
    cases h' with
    | cons hbelow hbehind => rw [ihbelow hbelow, ihbehind hbehind]

theorem split (h : DepthFirst own (front ++ back) order) :
    ∃ order₁ order₂, order = order₁ ++ order₂ ∧ DepthFirst own front order₁ ∧
      DepthFirst own back order₂ := by
  induction front generalizing order with
  | nil => exact ⟨[], order, rfl, .nil, h⟩
  | cons n front ih =>
    cases h with
    | @cons _ _ below _ hbelow hbehind =>
      obtain ⟨order₁, order₂, rfl, hfront, hback⟩ := ih hbehind
      refine ⟨n :: (below ++ order₁), order₂, ?_, .cons hbelow hfront, hback⟩
      rw [List.cons_append, List.append_assoc]

/-- No other nodes are taken than those that are below. -/
theorem exists_over (h : DepthFirst own nodes order) (hc : c ∈ order) : ∃ n ∈ nodes, Over own n c := by
  induction h with
  | nil => cases hc
  | @cons n nodes below behind _ _ ihbelow ihbehind =>
    rcases List.mem_cons.mp hc with rfl | hc
    · exact ⟨c, List.mem_cons_self, .refl⟩
    rcases List.mem_append.mp hc with hc | hc
    · obtain ⟨m, hm, hmc⟩ := ihbelow hc
      exact ⟨n, List.mem_cons_self, (Over.single hm).trans hmc⟩
    · obtain ⟨m, hm, hmc⟩ := ihbehind hc
      exact ⟨m, List.mem_cons_of_mem n hm, hmc⟩

end DepthFirst

/-- A walk with a stack takes the nodes in the order of a recursive one. -/
theorem Forest.Visits.depthFirst {f : Forest} {stack l : List Nat} (h : f.Visits stack l) :
    DepthFirst (fun n => (f.children n).toList) stack l := by
  induction h with
  | done => exact .nil
  | visit _ ih =>
    obtain ⟨below, behind, rfl, hbelow, hbehind⟩ := ih.split
    exact .cons hbelow hbehind

/-- What is below a node is visited after it. -/
theorem Forest.Visits.sublist_of_over {f : Forest} {l : List Nat} {n a b : Nat}
    (h : f.Visits [n] l) (ha : f.Over n a) (hab : f.Over a b) (hne : a ≠ b) : [a, b].Sublist l := by
  obtain ⟨l', h', hsub⟩ := h.of_over ha
  have hb := h'.mem hab
  obtain ⟨l'', rfl, -⟩ := h'.children
  have hb' := (List.mem_cons.mp hb).resolve_left (Ne.symm hne)
  exact ((List.singleton_sublist.mpr hb').cons_cons a).trans hsub

namespace PackedForest

variable {s : PackedForest} {f : Forest} {node : Option Nat} {l l' : List Nat}

/-- The node `b` is below `a`, or the same. -/
def Over (s : PackedForest) : Nat → Nat → Prop := CaptureForest.Over fun n => (s.children n).toList

/-- The walk of a packed forest comes to its end, and it takes the nodes `l`. They are the root and all
that is below it, each of them once, in the order of a recursive walk: a node is taken before those
below it, and what is below a child before what is below a later child. -/
structure Walks (s : PackedForest) (l : List Nat) : Prop where
  yields : ∀ {l'}, s.Yields s.first? l' ↔ l' = l
  depthFirst : ∀ {l'}, DepthFirst (fun n => (s.children n).toList) [rootNode] l' ↔ l' = l
  first : l.head? = some rootNode
  nodup : l.Nodup
  mem : ∀ {n}, n ∈ l ↔ s.Over rootNode n
  descendants : ∀ {a b}, a ∈ l → s.Over a b → a ≠ b → [a, b].Sublist l
  siblings : ∀ {n x y a b}, n ∈ l → [x, y].Sublist (s.children n).toList → s.Over x a →
    s.Over y b → [a, b].Sublist l

theorem Yields.unique (h : s.Yields node l) (h' : s.Yields node l') : l = l' := by
  induction h generalizing l' with
  | ended =>
    cases h'
    rfl
  | visit hnext _ ih =>
    cases h' with
    | visit hnext' h' =>
      obtain rfl := (hnext.unique hnext').2
      rw [ih h']

namespace Stores

/-- A walk with a bound on its climbs takes the same nodes. -/
theorem yields (h : s.Stores f) (hs : s.Linked) (hl : f.Lists node l) : s.Yields node l := by
  induction hl with
  | ended => exact .ended
  | @visit n _ _ ih =>
    obtain ⟨ups, answer, hnext, -⟩ := hs.next n
    rw [h.next?_eq hs hnext] at ih
    exact .visit hnext ih

/-- Where the root has no owner, the walk is one of the tree below the root. -/
theorem walks (h : s.Stores f) (hf : f.Rooted) (hpos : 0 < s.size) :
    s.Walks f.preorder.toList := by
  have hchildren : f.children = s.children := funext h.answers.children
  have hover : f.Over = s.Over := by rw [Forest.Over, Over, hchildren]
  obtain ⟨hvisits, hlists, hnodup⟩ := hf.walk (h.answers.size ▸ hpos)
  have hyields : s.Yields s.first? f.preorder.toList := by
    rw [first?, if_pos hpos]
    exact h.yields (h.linked hf.linked) hlists
  have hdepth := hvisits.depthFirst
  rw [hchildren] at hdepth
  have hmem {n : Nat} : n ∈ f.preorder.toList ↔ s.Over rootNode n := by
    refine ⟨fun hn => ?_, fun hn => hvisits.mem (hover ▸ hn)⟩
    obtain ⟨m, hm, hmn⟩ := hdepth.exists_over hn
    exact List.mem_singleton.mp hm ▸ hmn
  refine {
    yields := ⟨fun h' => h'.unique hyields, fun heq => heq ▸ hyields⟩
    depthFirst := ⟨fun h' => h'.unique hdepth, fun heq => heq ▸ hdepth⟩
    first := ?_
    nodup := hnodup
    mem := hmem
    descendants := fun {a b} ha hab hne => ?_
    siblings := fun {n x y a b} hn hxy hxa hyb => ?_ }
  · obtain ⟨l, hl, -⟩ := hvisits.children
    rw [hl]
    rfl
  · have ha' := hmem.mp ha
    rw [← hover] at ha' hab
    exact hvisits.sublist_of_over ha' hab hne
  · have hn' := hmem.mp hn
    rw [← hover] at hn' hxa hyb
    rw [← hchildren] at hxy
    obtain ⟨l, hl, hsub⟩ := hvisits.of_over hn'
    exact (hl.sublist hxy hxa hyb).trans hsub

end Stores

end PackedForest

end CaptureForest
