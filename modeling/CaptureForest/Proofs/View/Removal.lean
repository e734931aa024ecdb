import CaptureForest.Proofs.View.EdgeLists
import Mathlib.Data.List.Forall2

/-! # What a removal takes out

A removal goes through a list once. It takes out the children that are wanted where they stand
leftmost (`EdgeEdit.Leftmost`), whatever is there more than once, and it finds all of them if there
is any way to find them in their order. If there is none, it takes out as many as can be found from
the first on (`EdgeEdit.removeOwned_takes`). -/

namespace CaptureForest.EdgeEdit

variable {part list places places' wanted found p : List Nat} {a w i : Nat}

/-- The items of `part` stand in the list at these places, in order. -/
structure StandsAt (part list places : List Nat) : Prop where
  ascending : places.Pairwise (· < ·)
  items : places.map (list[·]?) = part.map some

/-- The items of `part` stand at these places, and there is no way to find them in order at places
of which one is further left. -/
structure Leftmost (part list places : List Nat) : Prop extends StandsAt part list places where
  le : ∀ {places'}, StandsAt part list places' → List.Forall₂ (· ≤ ·) places places'

/-- The items of a list that stand at other places. -/
def dropPlaces (list places : List Nat) : List Nat :=
  (list.zipIdx.filter (·.2 ∉ places)).map (·.1)

/-- Of what is wanted, this stands in the list in order; more from the first on does not. -/
structure LongestFound (wanted list found : List Nat) : Prop where
  isPrefix : found <+: wanted
  sublist : found.Sublist list
  longest : ∀ {p}, p <+: wanted → p.Sublist list → p <+: found

/-! ## Places -/

/-- Places behind the first are places of the rest of the list. -/
theorem exists_map_succ (h : ∀ i ∈ places, 0 < i) :
    ∃ behind : List Nat, places = behind.map (· + 1) := by
  refine ⟨places.map (· - 1), ?_⟩
  rw [List.map_map]
  refine (List.map_id places).symm.trans (List.map_congr_left fun i hi => ?_)
  exact (Nat.sub_add_cancel (h i hi)).symm

theorem pairwise_map_succ :
    (places.map (· + 1)).Pairwise (· < ·) ↔ places.Pairwise (· < ·) := by
  rw [List.pairwise_map]
  simp only [Nat.add_lt_add_iff_right]

theorem map_get_succ : (places.map (· + 1)).map ((a :: list)[·]?) = places.map (list[·]?) := by
  rw [List.map_map]
  rfl

theorem mem_map_succ : i + 1 ∈ places.map (· + 1) ↔ i ∈ places :=
  List.mem_map_of_injective fun _ _ => Nat.add_right_cancel

theorem forall₂_map_succ : List.Forall₂ (· ≤ ·) (places.map (· + 1)) (places'.map (· + 1)) ↔
    List.Forall₂ (· ≤ ·) places places' := by
  rw [List.forall₂_map_left_iff, List.forall₂_map_right_iff]
  simp only [Nat.add_le_add_iff_right]

namespace StandsAt

theorem skip (h : StandsAt part list places) : StandsAt part (a :: list) (places.map (· + 1)) where
  ascending := pairwise_map_succ.mpr h.ascending
  items := map_get_succ.trans h.items

theorem take (h : StandsAt part list places) :
    StandsAt (a :: part) (a :: list) (0 :: places.map (· + 1)) where
  ascending := by
    refine List.pairwise_cons.mpr ⟨fun i hi => ?_, pairwise_map_succ.mpr h.ascending⟩
    obtain ⟨j, -, rfl⟩ := List.mem_map.mp hi
    exact Nat.succ_pos j
  items := by
    rw [List.map_cons, map_get_succ, h.items]
    rfl

theorem tail (h : StandsAt (w :: part) list (i :: places)) : StandsAt part list places where
  ascending := (List.pairwise_cons.mp h.ascending).2
  items := (List.cons.inj h.items).2

/-- Either the first item of a list is not used, or it is the first of those that stand there. -/
theorem cases_cons (h : StandsAt part (a :: list) places) :
    (∃ behind, places = behind.map (· + 1) ∧ StandsAt part list behind) ∨
      ∃ part' behind, part = a :: part' ∧ places = 0 :: behind.map (· + 1) ∧
        StandsAt part' list behind := by
  obtain ⟨hascending, hitems⟩ := h
  cases places with
  | nil => exact .inl ⟨[], rfl, .nil, hitems⟩
  | cons i places =>
    obtain ⟨hlt, hrest⟩ := List.pairwise_cons.mp hascending
    obtain ⟨behind, rfl⟩ := exists_map_succ fun j hj => Nat.zero_lt_of_lt (hlt j hj)
    rw [pairwise_map_succ] at hrest
    cases i with
    | zero =>
      cases part with
      | nil => cases hitems
      | cons w part =>
        obtain ⟨hw, hothers⟩ := List.cons.inj hitems
        obtain rfl := Option.some.inj hw
        exact .inr ⟨part, behind, rfl, rfl, hrest, map_get_succ.symm.trans hothers⟩
    | succ i =>
      rw [← List.map_cons (f := (· + 1))] at hascending hitems ⊢
      exact .inl ⟨i :: behind, rfl, pairwise_map_succ.mp hascending,
        map_get_succ.symm.trans hitems⟩

theorem eq_nil (h : StandsAt [] list places) : places = [] := List.map_eq_nil_iff.mp h.items

theorem sublist (h : StandsAt part list places) : part.Sublist list := by
  induction list generalizing part places with
  | nil =>
    cases places with
    | nil => exact List.map_eq_nil_iff.mp h.items.symm ▸ .slnil
    | cons i places =>
      cases part with
      | nil => cases h.items
      | cons w part => cases (List.cons.inj h.items).1
  | cons a list ih =>
    obtain ⟨behind, -, h'⟩ | ⟨part', behind, rfl, -, h'⟩ := h.cases_cons
    · exact (ih h').cons a
    · exact (ih h').cons_cons a

end StandsAt

/-! ## Leftmost places -/

namespace Leftmost

theorem nil : Leftmost [] list [] where
  ascending := .nil
  items := rfl
  le h := by
    rw [h.eq_nil]
    exact .nil

/-- The first item of the list is the first that is looked for. -/
theorem take (h : Leftmost part list places) :
    Leftmost (a :: part) (a :: list) (0 :: places.map (· + 1)) where
  toStandsAt := h.toStandsAt.take
  le {places'} h' := by
    obtain ⟨behind, rfl, hbehind⟩ | ⟨part', behind, heq, rfl, hbehind⟩ := h'.cases_cons
    · cases behind with
      | nil => cases hbehind.items
      | cons i behind =>
        rw [List.map_cons]
        exact .cons (Nat.zero_le _) (forall₂_map_succ.mpr (h.le hbehind.tail))
    · obtain rfl := (List.cons.inj heq).2
      exact .cons (Nat.le_refl 0) (forall₂_map_succ.mpr (h.le hbehind))

/-- The first item of the list is not the first that is looked for. -/
theorem skip (h : Leftmost part list places) (ha : part.head? ≠ some a) :
    Leftmost part (a :: list) (places.map (· + 1)) where
  toStandsAt := h.toStandsAt.skip
  le {places'} h' := by
    obtain ⟨behind, rfl, hbehind⟩ | ⟨part', behind, rfl, -, -⟩ := h'.cases_cons
    · exact forall₂_map_succ.mpr (h.le hbehind)
    · exact absurd rfl ha

end Leftmost

/-! ## What is left -/

theorem dropPlaces_take :
    dropPlaces (a :: list) (0 :: places.map (· + 1)) = dropPlaces list places := by
  unfold dropPlaces
  rw [List.zipIdx_cons, List.zipIdx_succ, List.filter_cons_of_neg (by simp), List.filter_map,
    List.map_map]
  simp only [Function.comp_def, List.mem_cons, Nat.succ_ne_zero, false_or, mem_map_succ]

theorem dropPlaces_skip :
    dropPlaces (a :: list) (places.map (· + 1)) = a :: dropPlaces list places := by
  unfold dropPlaces
  rw [List.zipIdx_cons, List.zipIdx_succ, List.filter_cons_of_pos (by simp), List.filter_map,
    List.map_cons, List.map_map]
  simp only [Function.comp_def, mem_map_succ]

/-! ## What is found -/

namespace LongestFound

theorem none : LongestFound wanted [] [] where
  isPrefix := List.nil_prefix
  sublist := .refl []
  longest _ hsub := List.prefix_nil.mpr (List.sublist_nil.mp hsub)

theorem take (h : LongestFound wanted list found) :
    LongestFound (a :: wanted) (a :: list) (a :: found) where
  isPrefix := List.cons_prefix_cons.mpr ⟨rfl, h.isPrefix⟩
  sublist := h.sublist.cons_cons a
  longest {p} hp hsub := by
    cases p with
    | nil => exact List.nil_prefix
    | cons b p =>
      obtain ⟨rfl, hrest⟩ := List.cons_prefix_cons.mp hp
      exact List.cons_prefix_cons.mpr ⟨rfl, h.longest hrest (List.cons_sublist_cons.mp hsub)⟩

theorem skip (h : LongestFound wanted list found) (ha : wanted.head? ≠ some a) :
    LongestFound wanted (a :: list) found where
  isPrefix := h.isPrefix
  sublist := h.sublist.cons a
  longest {p} hp hsub := by
    refine h.longest hp ?_
    cases hsub with
    | cons _ hsub => exact hsub
    | cons_cons _ hsub =>
      obtain ⟨behind, rfl⟩ := hp
      exact absurd rfl ha

/-- Everything that is wanted is found if it stands there in order. -/
theorem eq_iff (h : LongestFound wanted list found) : found = wanted ↔ wanted.Sublist list :=
  ⟨fun heq => heq ▸ h.sublist,
    fun hsub => h.isPrefix.eq_of_length_le (h.longest (List.prefix_refl _) hsub).length_le⟩

end LongestFound

namespace Removal

variable {r : Removal} {kept : Array Nat}

theorem visit_hit : visit { kept, wanted := a :: wanted } a = { kept, wanted } := if_pos rfl

theorem visit_miss (ha : r.wanted.head? ≠ some a) :
    r.visit a = { r with kept := r.kept.push a } := by
  unfold visit
  split
  · rfl
  · rename_i hw
    rw [hw] at ha
    exact if_neg fun heq => ha (congrArg some heq)

/-- A run takes out the longest part of what is wanted, where it stands leftmost, and goes on to
look for the others. -/
theorem foldl_visit_takes (list : List Nat) (r : Removal) :
    ∃ found places, r.wanted = found ++ (list.foldl visit r).wanted ∧
      (list.foldl visit r).kept.toList = r.kept.toList ++ dropPlaces list places ∧
      LongestFound r.wanted list found ∧ Leftmost found list places := by
  induction list generalizing r with
  | nil => exact ⟨[], [], rfl, (List.append_nil _).symm, .none, .nil⟩
  | cons a list ih =>
    rw [List.foldl_cons]
    by_cases ha : r.wanted.head? = some a
    · obtain ⟨kept, wanted⟩ := r
      obtain ⟨ws, rfl⟩ := List.head?_eq_some_iff.mp ha
      rw [visit_hit]
      obtain ⟨found, places, hwanted, hkept, hfound, hplaces⟩ := ih { kept, wanted := ws }
      refine ⟨a :: found, 0 :: places.map (· + 1), congrArg (a :: ·) hwanted, ?_, hfound.take,
        hplaces.take⟩
      rw [hkept, dropPlaces_take]
    · rw [visit_miss ha]
      obtain ⟨found, places, hwanted, hkept, hfound, hplaces⟩ :=
        ih { r with kept := r.kept.push a }
      refine ⟨found, places.map (· + 1), hwanted, ?_, hfound.skip ha, hplaces.skip fun hhead => ?_⟩
      · rw [hkept, dropPlaces_skip, Array.toList_push, List.append_assoc, List.singleton_append]
      · obtain ⟨rest, rfl⟩ := List.head?_eq_some_iff.mp hhead
        exact ha (by rw [hwanted]; rfl)

theorem run_takes (wanted : List Nat) (list : Array Nat) :
    ∃ found places, wanted = found ++ (run wanted list).wanted ∧
      (run wanted list).kept.toList = dropPlaces list.toList places ∧
      LongestFound wanted list.toList found ∧ Leftmost found list.toList places := by
  rw [run, ← Array.foldl_toList]
  exact foldl_visit_takes list.toList { wanted }

end Removal

/-! ## Removals -/

variable {g g' : EdgeLists} {n : Nat}

/-- The lists `g'` are those of `g`, but that the children `found` are gone from the list that a
node owns, where they stood leftmost. -/
structure Takes (g g' : EdgeLists) (n : Nat) (found : List Nat) : Prop where
  size : g'.size = g.size
  taken : ∃ places, Leftmost found (g.owned n).toList places ∧
    (g'.owned n).toList = dropPlaces (g.owned n).toList places
  owned : ∀ m, m ≠ n → g'.owned m = g.owned m
  shared : ∀ m, g'.shared m = g.shared m

/-- A removal takes out as much as it can find, and fails if something is left to be found. -/
theorem removeOwned_cases (hn : n < g.size) (children : List Nat) :
    ∃ found g', LongestFound children (g.owned n).toList found ∧ Takes g g' n found ∧
      (found = children ∧ (removeOwned n children).run g = .ok () g' ∨
        found ≠ children ∧ (removeOwned n children).run g =
          .error (.removalIncomplete n found.length children.length) g') := by
  obtain ⟨found, places, hwanted, hkept, hfound, hplaces⟩ :=
    Removal.run_takes children (g.owned n)
  have hrun : (removeOwned n children).run g =
      let r := Removal.run children (g.owned n)
      if r.wanted.isEmpty then .ok () (g.setOwned n r.kept)
      else .error (.removalIncomplete n (children.length - r.wanted.length) children.length)
        (g.setOwned n r.kept) := if_pos hn
  rw [hrun]
  generalize Removal.run children (g.owned n) = r at hwanted hkept
  have hown : (g.setOwned n r.kept).owned n = r.kept :=
    (EdgeLists.owned_setOwned hn).trans (if_pos rfl)
  have htakes : Takes g (g.setOwned n r.kept) n found := {
    size := EdgeLists.size_setOwned
    taken := ⟨places, hplaces, by rw [hown, hkept]⟩
    owned := fun m hm => (EdgeLists.owned_setOwned hn).trans (if_neg hm)
    shared := fun _ => EdgeLists.shared_setOwned }
  refine ⟨found, g.setOwned n r.kept, hfound, htakes, ?_⟩
  by_cases hnone : r.wanted = []
  · refine .inl ⟨?_, if_pos (List.isEmpty_iff.mpr hnone)⟩
    rw [hwanted, hnone, List.append_nil]
  · have hlength : children.length - r.wanted.length = found.length := by
      rw [hwanted, List.length_append, Nat.add_sub_cancel]
    rw [← hlength]
    refine .inr ⟨fun heq => hnone ?_, if_neg (mt List.isEmpty_iff.mp hnone)⟩
    exact List.append_right_eq_self.mp (hwanted.symm.trans heq.symm)

theorem removeOwned_outOfRange (hn : g.size ≤ n) (children : List Nat) :
    (removeOwned n children).run g = .error (.removalOutOfRange n) g :=
  if_neg (Nat.not_lt.mpr hn)

/-- A removal succeeds if and only if the children stand in the node's list in their order. They are
then gone from where they stood leftmost; in a list without repetitions, what stays are the children
that are not among them. A removal that fails takes out the longest part, from the first child on,
that stands there in order. The lists of other nodes and all shared ones stay as they were. -/
theorem removeOwned_takes (g : EdgeLists) (n : Nat) (children : List Nat) :
    ((∃ g', (removeOwned n children).run g = .ok () g') ↔
        n < g.size ∧ children.Sublist (g.owned n).toList) ∧
    (∀ g', (removeOwned n children).run g = .ok () g' → Takes g g' n children ∧
      ((g.owned n).toList.Nodup →
        (g'.owned n).toList = (g.owned n).toList.filter (· ∉ children))) ∧
    ∀ e g', (removeOwned n children).run g = .error e g' →
      g.size ≤ n ∧ e = .removalOutOfRange n ∧ g' = g ∨
      n < g.size ∧ ∃ found, LongestFound children (g.owned n).toList found ∧ found ≠ children ∧
        Takes g g' n found ∧ e = .removalIncomplete n found.length children.length := by
  rcases Nat.lt_or_ge n g.size with hn | hn
  · obtain ⟨found, g₁, hfound, htakes, ⟨heq, hrun⟩ | ⟨hne, hrun⟩⟩ := removeOwned_cases hn children
    · have hsub := hfound.eq_iff.mp heq
      subst heq
      refine ⟨⟨fun _ => ⟨hn, hsub⟩, fun _ => ⟨g₁, hrun⟩⟩, fun g' hg' => ?_, fun e g' he => ?_⟩
      · cases hrun.symm.trans hg'
        refine ⟨htakes, fun hnodup => ?_⟩
        rw [(removeOwned_succeeds hn hsub).of_ok hrun, EdgeLists.owned_setOwned hn, if_pos rfl]
        exact Removal.run_kept hsub hnodup
      · cases hrun.symm.trans he
    · have hsub := mt hfound.eq_iff.mpr hne
      refine ⟨⟨fun ⟨_, hg'⟩ => ?_, fun ⟨_, h⟩ => absurd h hsub⟩, fun g' hg' => ?_,
        fun e g' he => ?_⟩
      · cases hrun.symm.trans hg'
      · cases hrun.symm.trans hg'
      · cases hrun.symm.trans he
        exact .inr ⟨hn, found, hfound, hne, htakes, rfl⟩
  · have hrun := removeOwned_outOfRange hn children
    refine ⟨⟨fun ⟨_, hg'⟩ => ?_, fun ⟨hlt, _⟩ => absurd hlt (Nat.not_lt.mpr hn)⟩, fun g' hg' => ?_,
      fun e g' he => ?_⟩
    · cases hrun.symm.trans hg'
    · cases hrun.symm.trans hg'
    · cases hrun.symm.trans he
      exact .inl ⟨hn, rfl, rfl⟩

/-- The children 1, 2, 1 are gone from where they stand leftmost in 2, 1, 1, 2, 3, 1. Of 3, 1, 2 the
first two are found. Node 1 owns nothing twice. -/
theorem removeOwned_takes_repeated :
    let g : EdgeLists :=
      #[{ owned := #[2, 1, 1, 2, 3, 1], shared := #[1] }, { owned := #[3, 2, 0] }, {}, {}]
    (∃ g', (removeOwned 0 [1, 2, 1]).run g = .ok () g' ∧ Takes g g' 0 [1, 2, 1] ∧
      g'.owned 0 = #[2, 1, 3]) ∧
    (∃ e g', (removeOwned 0 [3, 1, 2]).run g = .error e g' ∧ g'.owned 0 = #[2, 1, 1, 2] ∧
      ∃ found, LongestFound [3, 1, 2] (g.owned 0).toList found ∧ found ≠ [3, 1, 2] ∧
        Takes g g' 0 found) ∧
    ∃ g', (removeOwned 1 [3, 0]).run g = .ok () g' ∧ (g.owned 1).toList.Nodup ∧
      (g'.owned 1).toList = (g.owned 1).toList.filter (· ∉ [3, 0]) := by
  intro g
  have hnodup : (g.owned 1).toList.Nodup := by decide
  have hfirst := (removeOwned_takes g 0 [1, 2, 1]).2.1 _ rfl
  have hthird := (removeOwned_takes g 1 [3, 0]).2.1 _ rfl
  refine ⟨⟨_, rfl, hfirst.1, by decide⟩, ⟨_, _, rfl, by decide, ?_⟩,
    _, rfl, hnodup, hthird.2 hnodup⟩
  rcases (removeOwned_takes g 0 [3, 1, 2]).2.2 _ _ rfl with ⟨hle, -⟩ | ⟨-, found, h, hne, htakes, -⟩
  · exact absurd hle (by decide)
  · exact ⟨found, h, hne, htakes⟩

end CaptureForest.EdgeEdit
