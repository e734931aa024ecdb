import CaptureForest.Proofs.Pass.Apart

/-! # The view of internal markers

The two views that nest events in markers grow side by side: whatever gives a node an edge in one of
them gives it the same edge in the other (`Change.mirrored`). -/

namespace CaptureForest

theorem EdgeLists.ext {g g' : EdgeLists} (hsize : g.size = g'.size)
    (howned : ∀ n, g.owned n = g'.owned n) (hshared : ∀ n, g.shared n = g'.shared n) : g = g' := by
  refine Array.ext hsize fun n hn hn' => ?_
  have ho := howned n
  have hs := hshared n
  simp only [owned, shared, Array.getElem?_eq_getElem hn, Array.getElem?_eq_getElem hn',
    Option.map_some, Option.getD_some] at ho hs
  cases hg : g[n]
  cases hg' : g'[n]
  simp_all

namespace Pass

variable {p q : Pass} {moved : List Nat} {new : List Node} {owned shared : Links}

/-- Both views that nest events in markers have the same edges. -/
structure Mirrored (p : Pass) : Prop where
  owned : ∀ n, p.owned .rgp n = p.owned .allEvent n
  shared : ∀ n, p.shared .rgp n = p.shared .allEvent n

namespace Mirrored

/-- Equal edges in both views keep the views equal. -/
theorem regroups (h : p.Mirrored) (hq : p.Regroups q moved new owned shared)
    (howned : owned .rgp = owned .allEvent) (hshared : shared .rgp = shared .allEvent) :
    q.Mirrored where
  owned n := by rw [hq.owned, hq.owned, h.owned, howned]; rfl
  shared n := by rw [hq.shared, hq.shared, h.shared, hshared]

theorem adds (h : p.Mirrored) (hq : p.Adds q new owned shared)
    (howned : owned .rgp = owned .allEvent) (hshared : shared .rgp = shared .allEvent) :
    q.Mirrored :=
  h.regroups hq.regroups_nil howned hshared

theorem edges_eq (h : p.Mirrored) (hp : p.Sized) : p.edges.rgp = p.edges.allEvent :=
  EdgeLists.ext ((hp .rgp).trans (hp .allEvent).symm) (fun n => Array.ext' (h.owned n))
    fun n => Array.ext' (h.shared n)

end Mirrored

/-- No change tells the two views apart. -/
theorem Change.mirrored (hc : p.Change q) (h : p.Mirrored) : q.Mirrored := by
  cases hc with
  | submitBegins _ _ hq => exact h.adds hq rfl rfl
  | enters _ hq => exact h.adds hq.adds rfl rfl
  | leaves =>
    obtain ⟨_, _, _, _, _, hleft⟩ := p.left_eq
    rw [hleft]
    exact ⟨h.owned, h.shared⟩
  | logs _ _ hq => exact h.adds hq.adds rfl rfl
  | works _ hq =>
    cases hq with
    | sync _ _ hq | event _ _ hq => exact h.adds hq rfl rfl
    | nothing => exact h
  | shares _ hq => exact h.adds hq.adds rfl rfl
  | obeys _ _ hq =>
    cases hq with
    | beginsBuffer _ hq => exact h.regroups hq rfl rfl
    | endsBuffer _ hq | beginsLabel _ hq | insertsLabel _ hq | opensCall _ hq =>
      exact h.adds hq rfl rfl
    | endsLabel => exact ⟨h.owned, h.shared⟩
  | endsState _ hq | presents hq => exact h.adds hq rfl rfl
  | marks | clears | sorts | unmarks | submitEnds => exact ⟨h.owned, h.shared⟩

end Pass

end CaptureForest
