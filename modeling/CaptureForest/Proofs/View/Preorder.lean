import CaptureForest.Proofs.View.Branches
import CaptureForest.View.Forest
import Mathlib.Data.List.Nodup
import Mathlib.Data.List.Perm.Subperm

/-! # Preorder

A forest is walked without a stack: the node behind a node is found by its rank among its siblings.
The walk visits the same nodes, in the same order, as one that keeps on a stack what is still to be
visited (`Forest.Visits`), and it visits no node twice (`Forest.Rooted.preorder`). -/

namespace CaptureForest

/-- There are only so many numbers below `k`. -/
theorem length_le_of_nodup {l : List Nat} {k : Nat} (h : l.Nodup) (hlt : ∀ c ∈ l, c < k) :
    l.length ≤ k := by
  have hsub : l ⊆ List.range k := fun c hc => List.mem_range.mpr (hlt c hc)
  have hle := (h.subperm hsub).length_le
  rwa [List.length_range] at hle

namespace Forest

variable {f : Forest} {n c m d : Nat} {node : Option Nat} {stack done l : List Nat}

/-- Owners fit to children. -/
def Linked (f : Forest) : Prop :=
  ∀ c o, f.owner? c = some o ↔ (f.children o.node)[o.rank]? = some c

namespace Linked

/-- No node is a child of two nodes. -/
theorem once (hf : f.Linked) (hn : c ∈ (f.children n).toList) (hm : c ∈ (f.children m).toList) :
    n = m := by
  obtain ⟨i, hi⟩ := Array.getElem?_of_mem (Array.mem_def.mpr hn)
  obtain ⟨j, hj⟩ := Array.getElem?_of_mem (Array.mem_def.mpr hm)
  exact congrArg Owner.node
    (Option.some.inj (((hf c ⟨n, i⟩).mpr hi).symm.trans ((hf c ⟨m, j⟩).mpr hj)))

/-- No node is a child of one node twice. -/
theorem nodup (hf : f.Linked) (n : Nat) : (f.children n).toList.Nodup := by
  refine List.nodup_iff_getElem?_ne_getElem?.mpr fun i j hij hj heq => ?_
  obtain ⟨c, hc⟩ : ∃ c, (f.children n).toList[j]? = some c := ⟨_, List.getElem?_eq_getElem hj⟩
  rw [hc] at heq
  rw [Array.getElem?_toList] at hc heq
  have howner := ((hf c ⟨n, j⟩).mpr hc).symm.trans ((hf c ⟨n, i⟩).mpr heq)
  exact Nat.ne_of_gt hij (congrArg Owner.rank (Option.some.inj howner))

/-- No node is twice among the children of all nodes. -/
theorem nodup_flatMap (hf : f.Linked) {nodes : List Nat} (hnodes : nodes.Nodup) :
    (nodes.flatMap fun n => (f.children n).toList).Nodup := by
  refine List.nodup_flatMap.mpr ⟨fun n _ => hf.nodup n, hnodes.imp fun {a b} hne => ?_⟩
  exact fun c ha hb => hne (hf.once ha hb)

end Linked

/-- Owners fit to children, and the root has no owner. -/
structure Rooted (f : Forest) : Prop where
  owner : ∀ {n c r}, f.owner? c = some ⟨n, r⟩ ↔ (f.children n)[r]? = some c
  root : f.owner? rootNode = none

/-- The nodes that are visited, in order, if those on a stack are visited and, behind each of them,
all that is below it. -/
inductive Visits (f : Forest) : List Nat → List Nat → Prop
  | done : Visits f [] []
  | visit {n : Nat} {stack l : List Nat} :
    Visits f ((f.children n).toList ++ stack) l → Visits f (n :: stack) (n :: l)

/-- The node `b` is below `a`, or the same. -/
def Over (f : Forest) : Nat → Nat → Prop := CaptureForest.Over fun n => (f.children n).toList

/-! ## Parts of a visit -/

namespace Visits

theorem append {front back : List Nat} (h : Visits f (front ++ back) l) :
    ∃ l₁ l₂, l = l₁ ++ l₂ ∧ Visits f front l₁ ∧ Visits f back l₂ := by
  generalize hs : front ++ back = s at h
  induction h generalizing front with
  | done =>
    obtain ⟨rfl, rfl⟩ := List.append_eq_nil_iff.mp hs
    exact ⟨[], [], rfl, .done, .done⟩
  | @visit n s l h ih =>
    cases front with
    | nil =>
      obtain rfl : back = n :: s := hs
      exact ⟨[], n :: l, rfl, .done, .visit h⟩
    | cons m front =>
      obtain ⟨rfl, rfl⟩ := List.cons.inj hs
      obtain ⟨l₁, l₂, rfl, h₁, h₂⟩ := ih (List.append_assoc ..)
      exact ⟨m :: l₁, l₂, rfl, .visit h₁, h₂⟩

/-- A visit of one node goes on with its children. -/
theorem children (h : Visits f [n] l) :
    ∃ l', l = n :: l' ∧ Visits f (f.children n).toList l' := by
  cases h with
  | @visit _ _ l' h =>
    rw [List.append_nil] at h
    exact ⟨l', rfl, h⟩

/-- All nodes on the stack are visited. -/
theorem of_mem (h : Visits f stack l) (hn : n ∈ stack) : ∃ l', Visits f [n] l' ∧ l'.Sublist l := by
  obtain ⟨front, back, rfl⟩ := List.append_of_mem hn
  obtain ⟨l₁, l₂, rfl, -, h⟩ := h.append
  rw [← List.singleton_append] at h
  obtain ⟨l₃, l₄, rfl, h, -⟩ := h.append
  exact ⟨l₃, h, (List.sublist_append_left l₃ l₄).trans (List.sublist_append_right l₁ _)⟩

/-- All nodes below are visited. -/
theorem of_over (h : Visits f [n] l) (hc : f.Over n c) : ∃ l', Visits f [c] l' ∧ l'.Sublist l := by
  induction hc with
  | refl => exact ⟨l, h, .refl l⟩
  | tail _ hc ih =>
    obtain ⟨l', h', hsub⟩ := ih
    obtain ⟨l₁, rfl, hchildren⟩ := h'.children
    obtain ⟨l₂, h₂, hsub'⟩ := hchildren.of_mem hc
    exact ⟨l₂, h₂, (hsub'.cons _).trans hsub⟩

theorem mem (h : Visits f [n] l) (hc : f.Over n c) : c ∈ l := by
  obtain ⟨l', h', hsub⟩ := h.of_over hc
  obtain ⟨l'', rfl, -⟩ := h'.children
  exact hsub.subset List.mem_cons_self

/-- What is below a child is visited before what is below a later child. -/
theorem sublist {x y a b : Nat} (h : Visits f [n] l) (hxy : [x, y].Sublist (f.children n).toList)
    (ha : f.Over x a) (hb : f.Over y b) : [a, b].Sublist l := by
  obtain ⟨l', rfl, hl⟩ := h.children
  obtain ⟨front, back, hsplit, hx, hy⟩ := List.cons_sublist_iff.mp hxy
  rw [hsplit] at hl
  obtain ⟨l₁, l₂, rfl, h₁, h₂⟩ := hl.append
  obtain ⟨l₃, h₃, hsub₁⟩ := h₁.of_mem hx
  obtain ⟨l₄, h₄, hsub₂⟩ := h₂.of_mem (List.singleton_sublist.mp hy)
  refine (List.cons_sublist_iff.mpr ⟨l₁, l₂, rfl, hsub₁.subset (h₃.mem ha), ?_⟩).cons n
  exact List.singleton_sublist.mpr (hsub₂.subset (h₄.mem hb))

end Visits

/-! ## What is still to be visited -/

/-- Behind a node and all below it, its later siblings are to be visited, and the later siblings of
the nodes above it. -/
inductive Rest (f : Forest) : (depth : Nat) → Nat → List Nat → Prop
  | root : Rest f 0 rootNode []
  | child {d n c r : Nat} {stack : List Nat} :
    Rest f d n stack → (f.children n)[r]? = some c →
    Rest f (d + 1) c ((f.children n).toList.drop (r + 1) ++ stack)

/-- What has been visited and what is to be visited: no node twice, and only children of nodes that
have been visited, beside the root. -/
structure Walked (f : Forest) (done stack : List Nat) : Prop where
  nodup : (done ++ stack).Nodup
  owned : ∀ c ∈ done ++ stack, c = rootNode ∨ ∃ n ∈ done, c ∈ (f.children n).toList
  lt : ∀ c ∈ done ++ stack, c < f.size

/-- A climb leads to the first node that is still to be visited. -/
theorem Rest.climb_eq (h : Rest f d n stack) (hf : f.Rooted) (k : Nat) :
    f.climb (d + k + 1) n = stack.head? := by
  induction h generalizing k with
  | root => rfl
  | @child d n c r stack _ hc ih =>
    have howner := hf.owner.mpr hc
    have hne : c ≠ rootNode := fun heq => by
      rw [heq, hf.root] at howner
      cases howner
    have hnext : f.child? n (r + 1) = ((f.children n).toList.drop (r + 1)).head? := by
      rw [List.head?_drop, Array.getElem?_toList]
      rfl
    rw [climb, if_neg hne, howner, List.head?_append]
    dsimp only
    rw [hnext]
    cases ((f.children n).toList.drop (r + 1)).head? with
    | some m => rfl
    | none =>
      have hclimb := ih (k := k)
      rw [show d + 1 + k = d + k + 1 by omega]
      exact hclimb

theorem Rest.next?_eq (h : Rest f d n stack) (hf : f.Rooted) (hd : d < f.size) :
    f.next? n = ((f.children n).toList ++ stack).head? := by
  have hfirst : f.child? n 0 = (f.children n).toList.head? := by
    rw [List.head?_eq_getElem?, Array.getElem?_toList]
    rfl
  rw [next?, hfirst, List.head?_append]
  cases (f.children n).toList.head? with
  | some m => rfl
  | none =>
    obtain ⟨k, hk⟩ := Nat.exists_eq_add_of_lt hd
    rw [hk]
    exact h.climb_eq hf k

/-- The first node that is still to be visited has the others behind it. -/
theorem Rest.pop (h : Rest f d n (m :: stack)) : ∃ d', d' ≤ d ∧ Rest f d' m stack := by
  generalize hs : m :: stack = s at h
  induction h with
  | root => cases hs
  | @child d n c r s h hc ih =>
    cases hdrop : (f.children n).toList.drop (r + 1) with
    | nil =>
      rw [hdrop, List.nil_append] at hs
      obtain ⟨d', hle, hrest⟩ := ih hs
      exact ⟨d', Nat.le_succ_of_le hle, hrest⟩
    | cons m' rest =>
      rw [hdrop, List.cons_append] at hs
      obtain ⟨rfl, rfl⟩ := List.cons.inj hs
      have hget : (f.children n)[r + 1]? = some m := by
        have hhead := congrArg List.head? hdrop
        rwa [List.head?_drop, Array.getElem?_toList] at hhead
      have hrest : (f.children n).toList.drop (r + 1 + 1) = rest := by
        rw [← List.tail_drop, hdrop, List.tail_cons]
      rw [← hrest]
      exact ⟨d + 1, Nat.le_refl _, h.child hget⟩

/-- Behind a node its first child is visited, or what is first of the rest. -/
theorem Rest.next (h : Rest f d n stack) {rest : List Nat}
    (hm : (f.children n).toList ++ stack = m :: rest) : ∃ d', d' ≤ d + 1 ∧ Rest f d' m rest := by
  cases hchildren : (f.children n).toList with
  | nil =>
    rw [hchildren, List.nil_append] at hm
    rw [hm] at h
    obtain ⟨d', hle, hrest⟩ := h.pop
    exact ⟨d', Nat.le_succ_of_le hle, hrest⟩
  | cons m' cs =>
    rw [hchildren, List.cons_append] at hm
    obtain ⟨rfl, rfl⟩ := List.cons.inj hm
    have hget : (f.children n)[0]? = some m' := by
      rw [← Array.getElem?_toList, hchildren]
      rfl
    have hrest : (f.children n).toList.drop (0 + 1) = cs := by rw [hchildren]; rfl
    rw [← hrest]
    exact ⟨d + 1, Nat.le_refl _, h.child hget⟩

namespace Rooted

theorem linked (hf : f.Rooted) : f.Linked := fun _ _ => hf.owner

theorem not_mem_root (hf : f.Rooted) : rootNode ∉ (f.children n).toList := fun hmem => by
  obtain ⟨i, hi⟩ := Array.getElem?_of_mem (Array.mem_def.mpr hmem)
  cases hf.root.symm.trans (hf.owner.mpr hi)

theorem child_lt (hf : f.Rooted) (hc : c ∈ (f.children n).toList) : c < f.size := by
  obtain ⟨i, hi⟩ := Array.getElem?_of_mem (Array.mem_def.mpr hc)
  obtain ⟨place, hplace, -⟩ := Option.bind_eq_some_iff.mp (hf.owner.mpr hi)
  exact (Array.getElem?_eq_some_iff.mp hplace).1

end Rooted

namespace Walked

theorem start (hlt : 0 < f.size) : Walked f [] [rootNode] where
  nodup := List.nodup_singleton _
  owned _ hc := .inl (List.mem_singleton.mp hc)
  lt c hc := by rwa [List.mem_singleton.mp hc]

/-- As no node is there twice, only as many can have been visited as there are. -/
theorem length_le (h : Walked f done stack) : (done ++ stack).length ≤ f.size :=
  length_le_of_nodup h.nodup h.lt

/-- A node is visited, and its children are to be visited. -/
theorem visit (h : Walked f done (n :: stack)) (hf : f.Rooted) :
    Walked f (done ++ [n]) ((f.children n).toList ++ stack) := by
  have hperm : (done ++ [n] ++ ((f.children n).toList ++ stack)).Perm
      ((f.children n).toList ++ (done ++ n :: stack)) := by
    have hcomm := List.perm_append_comm_assoc (done ++ [n]) (f.children n).toList stack
    rwa [List.append_assoc done [n] stack, List.singleton_append] at hcomm
  have hnew : ∀ c ∈ (f.children n).toList, c ∉ done ++ n :: stack := fun c hc hmem => by
    rcases h.owned c hmem with rfl | ⟨m, hm, hc'⟩
    · exact hf.not_mem_root hc
    · cases hf.linked.once hc hc'
      exact (List.nodup_append.mp h.nodup).2.2 n hm n List.mem_cons_self rfl
  refine ⟨?_, fun c hc => ?_, fun c hc => ?_⟩
  · rw [hperm.nodup_iff]
    exact List.nodup_append.mpr
      ⟨hf.linked.nodup n, h.nodup, fun c hc c' hc' heq => hnew c hc (heq ▸ hc')⟩
  · rcases List.mem_append.mp (hperm.mem_iff.mp hc) with hc | hc
    · exact .inr ⟨n, by simp, hc⟩
    · refine (h.owned c hc).imp_right ?_
      rintro ⟨m, hm, hc⟩
      exact ⟨m, List.mem_append_left _ hm, hc⟩
  · rcases List.mem_append.mp (hperm.mem_iff.mp hc) with hc | hc
    · exact hf.child_lt hc
    · exact h.lt c hc

/-- What is to be visited can be visited to the end. -/
theorem visits (h : Walked f done stack) (hf : f.Rooted) :
    ∃ l, Visits f stack l ∧ (done ++ l).Nodup ∧ ∀ c ∈ done ++ l, c < f.size := by
  generalize hk : f.size - done.length = k
  induction k using Nat.strongRecOn generalizing done stack with
  | _ k ih =>
    cases stack with
    | nil => exact ⟨[], .done, h.nodup, h.lt⟩
    | cons n stack =>
      have hle := h.length_le
      rw [List.length_append, List.length_cons] at hle
      obtain ⟨l, hl, hnodup, hlt⟩ := ih (f.size - (done ++ [n]).length)
        (by rw [List.length_append, List.length_singleton]; omega) (h.visit hf) rfl
      rw [List.append_assoc, List.singleton_append] at hnodup hlt
      exact ⟨n :: l, .visit hl, hnodup, hlt⟩

end Walked

/-! ## Branches in a visit -/

/-- Nodes that are visited once are not visited in both orders. -/
theorem not_sublist_swap {a b : Nat} (hl : l.Nodup) (hab : [a, b].Sublist l) :
    ¬[b, a].Sublist l := by
  obtain ⟨front, back, rfl, ha, hb⟩ := List.cons_sublist_iff.mp hab
  have hdisjoint := List.disjoint_of_nodup_append hl
  intro hba
  obtain ⟨s, t, heq, hs, ht⟩ := List.sublist_append_iff.mp hba
  cases s with
  | nil =>
    obtain rfl : [b, a] = t := heq
    exact hdisjoint ha (ht.subset (List.mem_cons_of_mem b List.mem_cons_self))
  | cons x s =>
    obtain ⟨rfl, -⟩ := List.cons.inj heq
    exact hdisjoint (hs.subset List.mem_cons_self) (List.singleton_sublist.mp hb)

/-- Nothing else is over the root. -/
theorem Rooted.eq_root (hf : f.Rooted) (hn : f.Over n rootNode) : n = rootNode := by
  rcases Relation.ReflTransGen.cases_tail hn with heq | ⟨m, -, hm⟩
  · exact heq.symm
  · exact absurd hm hf.not_mem_root

/-- What is on an earlier branch is visited before. -/
theorem Visits.ahead {a b : Nat} (h : Visits f [rootNode] l) (hf : f.Rooted)
    (ha : f.Over rootNode a) (hab : Ahead (fun n => (f.children n).toList) a b) :
    [a, b].Sublist l := by
  obtain ⟨n, x, y, hxy, hxa, hyb⟩ := hab
  have hna : f.Over n a := .head (hxy.subset List.mem_cons_self) hxa
  have hroot : f.Over rootNode n := by
    rcases Over.comparable (fun hc hc' => hf.linked.once hc hc') ha hna with hroot | hn
    · exact hroot
    · rw [hf.eq_root hn]
      exact .refl
  obtain ⟨l', hl, hsub⟩ := h.of_over hroot
  exact (hl.sublist hxy hxa hyb).trans hsub

/-! ## The walk without a stack -/

/-- The nodes that the walk without a stack lists from a node on. -/
inductive Lists (f : Forest) : (node : Option Nat) → List Nat → Prop
  | ended : Lists f none []
  | visit {n : Nat} {l : List Nat} : Lists f (f.next? n) l → Lists f (some n) (n :: l)

theorem Lists.follow_eq (h : f.Lists node l) {limit : Nat} {acc : Array Nat}
    (hlimit : l.length ≤ limit) : (f.follow limit node acc).toList = acc.toList ++ l := by
  induction h generalizing limit acc with
  | ended => cases limit <;> simp [follow]
  | @visit n l _ ih =>
    obtain ⟨limit, rfl⟩ := Nat.exists_eq_add_of_le' (Nat.one_le_of_lt hlimit)
    show (f.follow limit (f.next? n) (acc.push n)).toList = acc.toList ++ n :: l
    rw [ih (Nat.le_of_succ_le_succ hlimit), Array.toList_push, List.append_assoc,
      List.singleton_append]

/-- The walk without a stack lists the nodes that the one with a stack visits. -/
theorem Visits.lists (h : Visits f stack l) (hf : f.Rooted) (hwalked : Walked f done stack)
    (hrest : ∀ n rest, stack = n :: rest → ∃ d, d ≤ done.length ∧ Rest f d n rest) :
    f.Lists stack.head? l := by
  induction h generalizing done with
  | done => exact .ended
  | @visit n stack l h ih =>
    obtain ⟨d, hd, hn⟩ := hrest n stack rfl
    have hlt : d < f.size := by
      have hle := hwalked.length_le
      rw [List.length_append, List.length_cons] at hle
      omega
    refine .visit ?_
    rw [hn.next?_eq hf hlt]
    refine ih (hwalked.visit hf) fun m rest hm => ?_
    obtain ⟨d', hle, hm⟩ := hn.next hm
    refine ⟨d', ?_, hm⟩
    rw [List.length_append, List.length_singleton]
    omega

/-- The walk of a forest comes to its end. It visits the root and all that is below it, no node twice,
and needs no stack. -/
theorem Rooted.walk (hf : f.Rooted) (hlt : 0 < f.size) :
    Visits f [rootNode] f.preorder.toList ∧ f.Lists (some rootNode) f.preorder.toList ∧
      f.preorder.toList.Nodup := by
  have hstart := Walked.start hlt
  obtain ⟨l, hl, hnodup, hlt'⟩ := hstart.visits hf
  have hlists : f.Lists (some rootNode) l := hl.lists hf hstart fun n rest heq => by
    cases heq
    exact ⟨0, Nat.le_refl 0, .root⟩
  have hne : f.isEmpty = false := by simpa [Array.isEmpty] using Nat.ne_of_gt hlt
  have heq : f.preorder.toList = l := by
    rw [Forest.preorder, preorderTake, hne]
    exact hlists.follow_eq (length_le_of_nodup hnodup hlt')
  rw [heq]
  exact ⟨hl, hlists, hnodup⟩

/-- The walk of a forest visits the root and all that is below it, no node twice. -/
theorem Rooted.preorder (hf : f.Rooted) (hlt : 0 < f.size) :
    Visits f [rootNode] f.preorder.toList ∧ f.preorder.toList.Nodup :=
  ⟨(hf.walk hlt).1, (hf.walk hlt).2.2⟩

end Forest

end CaptureForest
