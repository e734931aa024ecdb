import Mathlib.Data.List.Sort

/-! # Stable sorts

`StablySorted key l sorted` says what a stable sort by a key does, however it is done: the entries
are the same, they are in the order of their keys, and those of one key are in the order that they
had before. -/

namespace CaptureForest

variable {α : Type} {key key' : α → Nat} {l sorted : List α}

/-- The list `sorted` is the stable sort of `l` by a key. -/
structure StablySorted (key : α → Nat) (l sorted : List α) : Prop where
  perm : sorted.Perm l
  ordered : sorted.Pairwise (key · ≤ key ·)
  stable : ∀ k, sorted.filter (key · = k) = l.filter (key · = k)

namespace StablySorted

theorem mergeSort (key : α → Nat) (l : List α) :
    StablySorted key l (l.mergeSort (key · ≤ key ·)) := by
  have htrans (a b c : α) (hab : decide (key a ≤ key b)) (hbc : decide (key b ≤ key c)) :
      decide (key a ≤ key c) :=
    decide_eq_true (Nat.le_trans (of_decide_eq_true hab) (of_decide_eq_true hbc))
  have htotal (a b : α) : (decide (key a ≤ key b) || decide (key b ≤ key a)) = true := by
    simpa using Nat.le_total (key a) (key b)
  have hperm := List.mergeSort_perm l (key · ≤ key ·)
  refine ⟨hperm, ?_, fun k => ?_⟩
  · exact (List.pairwise_mergeSort htrans htotal l).imp of_decide_eq_true
  · -- The entries of one key are sorted before, so they stay in their order.
    have hkey {a : α} (ha : a ∈ l.filter (key · = k)) : key a = k :=
      of_decide_eq_true (List.mem_filter.mp ha).2
    have hsorted : (l.filter (key · = k)).Pairwise fun a b => decide (key a ≤ key b) :=
      List.Pairwise.imp_of_mem (fun ha hb _ => by simp [hkey ha, hkey hb])
        (List.pairwise_of_forall (R := fun _ _ => True) fun _ _ => trivial)
    have hsub := (List.sublist_mergeSort htrans htotal hsorted List.filter_sublist).filter (key · = k)
    rw [List.filter_filter] at hsub
    simp only [Bool.and_self] at hsub
    exact (hsub.eq_of_length (hperm.filter _).length_eq.symm).symm

/-- Keys of other entries are of no account. -/
theorem congr (h : StablySorted key l sorted) (hkey : ∀ a ∈ l, key' a = key a) :
    StablySorted key' l sorted where
  perm := h.perm
  ordered := by
    refine h.ordered.imp_of_mem fun ha hb hab => ?_
    rw [hkey _ (h.perm.mem_iff.mp ha), hkey _ (h.perm.mem_iff.mp hb)]
    exact hab
  stable k := by
    have hl : l.filter (key' · = k) = l.filter (key · = k) :=
      List.filter_congr fun a ha => by rw [hkey a ha]
    have hsorted : sorted.filter (key' · = k) = sorted.filter (key · = k) :=
      List.filter_congr fun a ha => by rw [hkey a (h.perm.mem_iff.mp ha)]
    rw [hl, hsorted]
    exact h.stable k

end StablySorted

end CaptureForest
