import CaptureForest.Proofs.View.Packed
import CaptureForest.View.PackedWalk

/-! # Climbs

Owners may be owned by what they own, so climbs are not bounded by the depth of a tree. But a climb
starts at a node without children and goes up from last children only. The nodes below it are
therefore told by the node that it has come to (`PackedForest.Risen.unique`), and it never comes back
to one of them: no search for the node behind a node goes up more often than there are nodes
(`PackedForest.next_ends`). -/

namespace CaptureForest.PackedForest

variable {s : PackedForest} {f : Forest} {m n p ups ups' : Nat} {below below' : List Nat}
  {last last' : ClimbTurn} {answer answer' : Option Nat}

/-- Owners and ranks fit to children, and only nodes have children. -/
structure Linked (s : PackedForest) : Prop where
  child : ∀ {p c r}, s.child? p r = some c ↔ s.parent? c = some p ∧ s.rank? c = some r
  paired : ∀ c, s.parent? c = none ↔ s.rank? c = none
  lt : ∀ {p r c}, s.child? p r = some c → p < s.size

theorem lt_of_parent? (h : s.parent? n = some p) : n < s.size := by
  refine Nat.lt_of_not_le fun hle => ?_
  rw [parent?, Array.getElem?_eq_none hle] at h
  cases h

/-! ## Turns -/

theorem climbTurn_eq_up : s.climbTurn n = .up p ↔
    n ≠ rootNode ∧ s.parent? n = some p ∧ ∃ r, s.rank? n = some r ∧ s.child? p (r + 1) = none := by
  unfold climbTurn
  by_cases hroot : n = rootNode
  · simp [hroot]
  · cases hparent : s.parent? n with
    | none => simp [hroot]
    | some owner =>
      cases hrank : s.rank? n with
      | none => simp [hroot]
      | some r =>
        simp only [hroot, if_false, ne_eq, not_false_eq_true, true_and, Option.some.injEq]
        constructor
        · intro h
          split at h
          · cases h
          · cases h
            exact ⟨rfl, r, rfl, ‹_›⟩
        · rintro ⟨rfl, _, rfl, hnone⟩
          rw [hnone]

theorem Linked.climbTurn_ne_unranked (h : s.Linked) : s.climbTurn n ≠ .unranked := by
  unfold climbTurn
  split
  · nofun
  · split
    · nofun
    · rename_i _ owner hparent
      split
      · rename_i hrank
        cases hparent.symm.trans ((h.paired n).mpr hrank)
      · split <;> nofun

/-- A climb goes up from the last child of an owner. -/
theorem Linked.back?_of_up (h : s.Linked) (hup : s.climbTurn n = .up p) :
    (s.children p).back? = some n := by
  obtain ⟨-, hparent, r, hrank, hnone⟩ := climbTurn_eq_up.mp hup
  have hchild : (s.children p)[r]? = some n := h.child.mpr ⟨hparent, hrank⟩
  have hlt := (Array.getElem?_eq_some_iff.mp hchild).1
  have hle := Array.getElem?_eq_none_iff.mp hnone
  rw [Array.back?, show (s.children p).size - 1 = r by omega]
  exact hchild

/-! ## Ways up -/

/-- A way up from a node without children leads to a node, from last children to owners. It leaves
the nodes `below` behind, the last one first. -/
inductive Risen (s : PackedForest) : (node : Nat) → (below : List Nat) → Prop
  | start {node : Nat} : s.children node = #[] → Risen s node []
  | up {node owner : Nat} {below : List Nat} :
    Risen s node below → (s.children owner).back? = some node → Risen s owner (node :: below)

namespace Risen

/-- There is one way up to a node, as each node has one last child. -/
theorem unique (h : s.Risen n below) (h' : s.Risen n below') : below = below' := by
  induction h generalizing below' with
  | start hempty =>
    cases h' with
    | start => rfl
    | up _ hlast =>
      rw [hempty] at hlast
      cases hlast
  | up _ hlast ih =>
    cases h' with
    | start hempty =>
      rw [hempty] at hlast
      cases hlast
    | up h' hlast' =>
      cases hlast.symm.trans hlast'
      rw [ih h']

theorem of_mem (h : s.Risen n below) (hm : m ∈ below) :
    ∃ below', below'.length < below.length ∧ s.Risen m below' := by
  induction h with
  | start => cases hm
  | up h _ ih =>
    rcases List.mem_cons.mp hm with rfl | hm
    · exact ⟨_, Nat.lt_succ_self _, h⟩
    · obtain ⟨below', hlt, h'⟩ := ih hm
      exact ⟨below', Nat.lt_succ_of_lt hlt, h'⟩

/-- A way up does not come back to a node: there would be a shorter way to it. -/
theorem nodup (h : s.Risen n below) : (n :: below).Nodup := by
  induction h with
  | start => exact List.nodup_singleton _
  | up h hlast ih =>
    refine List.nodup_cons.mpr ⟨fun hmem => ?_, ih⟩
    have hway := h.up hlast
    obtain ⟨below', hlt, h'⟩ := hway.of_mem hmem
    exact Nat.ne_of_lt hlt (congrArg List.length (h'.unique hway))

theorem lt (h : s.Risen n below) (hs : s.Linked) (hm : m ∈ below) : m < s.size := by
  induction h with
  | start => cases hm
  | up _ hlast ih =>
    rcases List.mem_cons.mp hm with rfl | hm
    · exact lt_of_parent? (hs.child.mp hlast).1
    · exact ih hm

theorem length_lt (h : s.Risen n below) (hs : s.Linked) (hn : n < s.size) :
    below.length < s.size := by
  refine length_le_of_nodup h.nodup fun m hm => ?_
  rcases List.mem_cons.mp hm with rfl | hm
  · exact hn
  · exact h.lt hs hm

end Risen

/-! ## Climbs end -/

theorem Climbs.unique (h : s.Climbs ups n last) (h' : s.Climbs ups' n last') :
    ups = ups' ∧ last = last' := by
  induction h generalizing ups' with
  | stop hstop =>
    cases h' with
    | stop => exact ⟨rfl, rfl⟩
    | up hup => exact absurd hup (hstop _)
  | up hup _ ih =>
    cases h' with
    | stop hstop => exact absurd hup (hstop _)
    | up hup' h' =>
      cases hup.symm.trans hup'
      exact (ih h').imp_left (congrArg (· + 1))

theorem Next.unique (h : s.Next n ups answer) (h' : s.Next n ups' answer') :
    ups = ups' ∧ answer = answer' := by
  cases h with
  | child hfirst =>
    cases h' with
    | child hfirst' => exact ⟨rfl, hfirst.symm.trans hfirst'⟩
    | climb hnone => cases hfirst.symm.trans hnone
  | climb hnone h =>
    cases h' with
    | child hfirst => cases hfirst.symm.trans hnone
    | climb _ h' => exact (h.unique h').imp_right (congrArg ClimbTurn.answer?)

theorem Linked.climbs (hs : s.Linked) (hn : n < s.size) (h : s.Risen n below) :
    ∃ ups last, s.Climbs ups n last ∧ ups + below.length < s.size := by
  generalize hk : s.size - below.length = k
  induction k generalizing n below with
  | zero => exact absurd (h.length_lt hs hn) (Nat.not_lt.mpr (Nat.le_of_sub_eq_zero hk))
  | succ k ih =>
    by_cases hup : ∃ owner, s.climbTurn n = .up owner
    · obtain ⟨owner, hup⟩ := hup
      have hlast := hs.back?_of_up hup
      obtain ⟨ups, last, hclimbs, hlt⟩ := ih (hs.lt hlast) (h.up hlast)
        (by rw [List.length_cons]; omega)
      exact ⟨ups + 1, last, .up hup hclimbs, by rw [List.length_cons] at hlt; omega⟩
    · exact ⟨0, s.climbTurn n, .stop fun owner hup' => hup ⟨owner, hup'⟩,
        by rw [Nat.zero_add]; exact h.length_lt hs hn⟩

/-- What is no node has neither children nor an owner. -/
theorem Linked.next_of_le (hs : s.Linked) (hn : s.size ≤ n) : s.Next n 0 none := by
  have hchild : s.child? n 0 = none :=
    Option.eq_none_iff_forall_ne_some.mpr fun c hc => Nat.not_lt.mpr hn (hs.lt hc)
  have hparent : s.parent? n = none :=
    Option.eq_none_iff_forall_ne_some.mpr fun p hp => Nat.not_lt.mpr hn (lt_of_parent? hp)
  have hturn : (s.climbTurn n).answer? = none := by
    unfold climbTurn
    rw [hparent]
    split <;> rfl
  rw [← hturn]
  refine .climb hchild (.stop fun owner hup => ?_)
  cases hparent.symm.trans (climbTurn_eq_up.mp hup).2.1

theorem Linked.next (hs : s.Linked) (n : Nat) :
    ∃ ups answer, s.Next n ups answer ∧ ups ≤ s.size ∧ (0 < s.size → ups < s.size) := by
  by_cases hn : n < s.size
  · cases hfirst : s.child? n 0 with
    | some first => exact ⟨0, some first, .child hfirst, Nat.zero_le _, id⟩
    | none =>
      have hempty : s.children n = #[] :=
        Array.eq_empty_of_size_eq_zero (Nat.le_zero.mp (Array.getElem?_eq_none_iff.mp hfirst))
      obtain ⟨ups, last, hclimbs, hlt⟩ := hs.climbs hn (.start hempty)
      exact ⟨ups, last.answer?, .climb hfirst hclimbs, Nat.le_of_lt hlt, fun _ => hlt⟩
  · exact ⟨0, none, hs.next_of_le (Nat.le_of_not_lt hn), Nat.zero_le _, id⟩

/-! ## Climbs with a bound -/

namespace Stores

theorem of_calls {k : Nat} {calls : List ForestCall}
    (h : (calls.forM ForestCall.onPacked).run (PackedForest.ofNodes k) = .ok () s) :
    ∃ f, (calls.forM ForestCall.onForest).run (Forest.ofNodes k) = .ok () f ∧ s.Stores f ∧
      f.Given calls := by
  obtain ⟨_, s', _, f, hs, hf, hstores⟩ | ⟨e, s', _, hs, -⟩ :=
    ((Stores.ofNodes k).calls_agree calls).cases
  · have hgiven := Leads.of_ok hf (Forest.Given.of_calls k calls)
    cases hs.symm.trans h
    exact ⟨f, hf, hstores, hgiven⟩
  · cases hs.symm.trans h

theorem linked (h : s.Stores f) (hf : f.Linked) : s.Linked where
  child {p c r} := by
    rw [child?, ← h.answers.children, ← hf c ⟨p, r⟩]
    exact h.owner?_eq_some_iff
  paired := h.paired
  lt {p r c} hc := by
    rw [child?, ← h.answers.children] at hc
    rw [← h.answers.size]
    exact Forest.lt_of_mem_children (Array.mem_of_getElem? hc)

theorem climb_succ (h : s.Stores f) {fuel : Nat} : f.climb (fuel + 1) n =
    match s.climbTurn n with
    | .up owner => f.climb fuel owner
    | turn => turn.answer? := by
  unfold climbTurn
  rw [Forest.climb]
  by_cases hroot : n = rootNode
  · simp [hroot, ClimbTurn.answer?]
  · cases howner : f.owner? n with
    | none => simp [hroot, h.owner?_eq_none_iff.mp howner, ClimbTurn.answer?]
    | some o =>
      obtain ⟨hparent, hrank⟩ := h.owner?_eq_some_iff.mp howner
      have hchild : f.child? o.node (o.rank + 1) = s.child? o.node (o.rank + 1) := by
        rw [Forest.child?, child?, h.answers.children]
      simp only [hroot, if_false, hparent, hrank, hchild]
      cases s.child? o.node (o.rank + 1) <;> rfl

/-- A climb with a bound comes to the same end if it may go on for long enough. -/
theorem climb_eq (h : s.Stores f) (hclimbs : s.Climbs ups n last) {fuel : Nat}
    (hfuel : ups < fuel) : f.climb fuel n = last.answer? := by
  induction hclimbs generalizing fuel with
  | @stop node hstop =>
    obtain ⟨fuel, rfl⟩ := Nat.exists_eq_add_of_le' hfuel
    rw [h.climb_succ]
    split
    · exact absurd ‹_› (hstop _)
    · rfl
  | up hup _ ih =>
    obtain ⟨fuel, rfl⟩ := Nat.exists_eq_add_of_le' (Nat.one_le_of_lt hfuel)
    rw [h.climb_succ, hup]
    exact ih (Nat.lt_of_succ_lt_succ hfuel)

/-- The number of nodes is a bound that no climb comes to. -/
theorem next?_eq (h : s.Stores f) (hs : s.Linked) (hnext : s.Next n ups answer) :
    f.next? n = answer := by
  have hchild : f.child? n 0 = s.child? n 0 := by rw [Forest.child?, child?, h.answers.children]
  rw [Forest.next?, hchild, h.answers.size]
  cases hnext with
  | child hfirst => rw [hfirst]
  | @climb _ last hnone hclimbs =>
    rw [hnone]
    obtain ⟨ups', answer', hnext', hle, hlt⟩ := hs.next n
    obtain ⟨rfl, rfl⟩ := (Next.climb hnone hclimbs).unique hnext'
    rcases Nat.eq_zero_or_pos s.size with hzero | hpos
    · have hnode := hs.next_of_le (n := n) (by rw [hzero]; exact Nat.zero_le n)
      rw [hzero]
      exact (hnode.unique hnext').2
    · exact h.climb_eq hclimbs (hlt hpos)

end Stores

/-- The search for the node behind a node ends, whatever owns what: in a forest that calls have made
which all succeeded, it goes up less often than there are nodes. It is over at a later sibling, at the
root or at a node without an owner, never at one whose rank is missing. A search with the number of
nodes as its bound has the same answer. -/
theorem next_ends (k : Nat) (calls : List ForestCall) (s : PackedForest)
    (h : (calls.forM ForestCall.onPacked).run (ofNodes k) = .ok () s) (node : Nat) :
    (∃ ups answer, s.Next node ups answer ∧ ups ≤ s.size ∧ (0 < s.size → ups < s.size) ∧
      ∃ f, (calls.forM ForestCall.onForest).run (Forest.ofNodes k) = .ok () f ∧
        f.next? node = answer) ∧
    ∀ ups last, s.Climbs ups node last → last ≠ .unranked := by
  obtain ⟨f, hf, hstores, hgiven⟩ := Stores.of_calls h
  have hs := hstores.linked hgiven.linked
  obtain ⟨ups, answer, hnext, hle, hlt⟩ := hs.next node
  refine ⟨⟨ups, answer, hnext, hle, hlt, f, hf, hstores.next?_eq hs hnext⟩, fun _ _ hclimbs => ?_⟩
  clear hnext
  induction hclimbs with
  | stop => exact hs.climbTurn_ne_unranked
  | up _ _ ih => exact ih

/-- The nodes 1 and 2 own each other, and the root is owned. From node 4, the last child of node 2,
the climb goes around, until node 1 has a later sibling: node 4. -/
theorem next_ends_cycle :
    let calls := [.addChildren 1 #[2], .addChildren 2 #[1, 4], .addChildren 3 #[0]]
    ∃ s, (calls.forM ForestCall.onPacked).run (ofNodes 5) = .ok () s ∧
      s.Next 4 2 (some 4) ∧ ∃ ups answer, s.Next 4 ups answer ∧ ups ≤ s.size := by
  intro calls
  let s : PackedForest := {
    ownedLists.spans := #[⟨0, 0⟩, ⟨0, 1⟩, ⟨1, 2⟩, ⟨3, 1⟩, ⟨0, 0⟩]
    ownedLists.data := #[2, 1, 4, 0]
    sharedLists.spans := #[⟨0, 0⟩, ⟨0, 0⟩, ⟨0, 0⟩, ⟨0, 0⟩, ⟨0, 0⟩]
    parents := #[some 3, some 2, some 1, none, some 2]
    ranks := #[some 0, some 0, some 0, none, some 1] }
  have hs : (calls.forM ForestCall.onPacked).run (ofNodes 5) = .ok () s := rfl
  have hlast : s.climbTurn 1 = .sibling 4 := by decide
  obtain ⟨⟨ups, answer, hnext, hle, -⟩, -⟩ := next_ends 5 calls s hs 4
  refine ⟨s, hs, ?_, ups, answer, hnext, hle⟩
  have htwo : s.climbTurn 4 = .up 2 := by decide
  have hone : s.climbTurn 2 = .up 1 := by decide
  have hclimbs : s.Climbs 2 4 (s.climbTurn 1) :=
    .up htwo (.up hone (.stop (by rw [hlast]; nofun)))
  rw [hlast] at hclimbs
  exact .climb (by decide) hclimbs

end CaptureForest.PackedForest
