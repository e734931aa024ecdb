import CaptureForest.Memory.Search
import CaptureForest.Proofs.Memory.Blocks

/-! # Bisection finds the neighbours

A bisection is right where no block behind one without a property has it, and then it counts the
leading blocks that have it (`partitionPoint_eq`). The blocks of a memory ascend, so this is so for
the blocks that start before an address, and places found by bisection are the right ones
(`BlockMemory.Spread.insertBisecting_eq`, `BlockMemory.Spread.readBisecting?_eq`). -/

namespace CaptureForest

variable {p : Block → Bool} {blocks : List Block} {k lo hi : Nat}

/-- The blocks with `p` are the first `k`. -/
def CutAt (p : Block → Bool) (blocks : List Block) (k : Nat) : Prop :=
  ∀ i, blocks[i]?.any p ↔ i < k

theorem CutAt.partitionPoint_eq (h : CutAt p blocks k) (hlo : lo ≤ k) (hhi : k ≤ hi) :
    partitionPoint p blocks lo hi = k := by
  fun_induction partitionPoint p blocks lo hi with
  | case1 lo hi hlt mid hmid ih => exact ih ((h mid).mp hmid) hhi
  | case2 lo hi hlt mid hmid ih => exact ih hlo (Nat.le_of_not_lt (mt (h mid).mpr hmid))
  | case3 lo hi hge => omega

/-- The leading blocks with `p` are all that have it, if none behind one without `p` has it. -/
theorem cutAt_takeWhile (h : blocks.Pairwise fun a b => p b → p a) :
    CutAt p blocks (blocks.takeWhile p).length := by
  intro i
  induction blocks generalizing i with
  | nil => simp
  | cons a blocks ih =>
    obtain ⟨hfirst, hrest⟩ := List.pairwise_cons.mp h
    by_cases ha : p a
    · rw [List.takeWhile_cons_of_pos ha]
      cases i with
      | zero => simpa using ha
      | succ i => simpa using ih hrest i
    · rw [List.takeWhile_cons_of_neg ha]
      have hnone : ∀ b ∈ a :: blocks, ¬p b := fun b hb => by
        rcases List.mem_cons.mp hb with rfl | hb
        · exact ha
        · exact mt (hfirst b hb) ha
      refine ⟨fun hany => ?_, fun hlt => absurd hlt (Nat.not_lt_zero i)⟩
      obtain ⟨b, hb, hp⟩ := Option.any_eq_true _ _ |>.mp hany
      exact absurd hp (hnone b (List.mem_of_getElem? hb))

theorem partitionPoint_eq (h : blocks.Pairwise fun a b => p b → p a) :
    partitionPoint p blocks 0 blocks.length = (blocks.takeWhile p).length :=
  (cutAt_takeWhile h).partitionPoint_eq (Nat.zero_le _) (List.takeWhile_prefix p).length_le

/-- The last of the first blocks stands before their number. -/
theorem getLast?_of_prefix {front : List Block} (h : front <+: blocks) :
    front.getLast? = if front.length = 0 then none else blocks[front.length - 1]? := by
  obtain ⟨back, rfl⟩ := h
  split
  · rename_i hzero
    rw [List.length_eq_zero_iff.mp hzero]
    rfl
  · rw [List.getElem?_append_left (by omega), List.getLast?_eq_getElem?]

theorem drop_length_takeWhile : blocks.drop (blocks.takeWhile p).length = blocks.dropWhile p := by
  have hdrop := @List.drop_left _ (blocks.takeWhile p) (blocks.dropWhile p)
  rwa [List.takeWhile_append_dropWhile] at hdrop

namespace BlockMemory

variable {m : BlockMemory} {va size : Nat} {new : Block}

theorem Spread.place_lt (h : m.Spread) : m.place (·.va < va) = (m.below va).length :=
  partitionPoint_eq (h.ascending.imp fun hab => by simpa using hab.trans_lt)

theorem Spread.place_le (h : m.Spread) :
    m.place (·.va ≤ va) = (m.blocks.takeWhile (·.va ≤ va)).length :=
  partitionPoint_eq (h.ascending.imp fun hab => by simpa using hab.trans)

/-- A new block comes to the same place, and is refused for the same neighbours. -/
theorem Spread.insertBisecting_eq (h : m.Spread) (new : Block) :
    m.insertBisecting new = m.insert new := by
  have hprevious := getLast?_of_prefix (List.takeWhile_prefix (l := m.blocks) (·.va < new.va))
  have hnext : m.blocks.drop (m.below new.va).length = m.above new.va := drop_length_takeWhile
  have hoverlaps : m.overlaps new = ((0 < (m.below new.va).length &&
      m.blocks[(m.below new.va).length - 1]?.any (new.va < ·.stop)) ||
      m.blocks[(m.below new.va).length]?.any (·.va < new.stop)) := by
    unfold overlaps
    rw [← hnext, List.head?_drop, below, hprevious]
    congr 1
    split
    · rename_i hzero
      simp [hzero]
    · rename_i hpos
      simp [Nat.pos_of_ne_zero hpos]
  have htake : m.blocks.take (m.below new.va).length = m.below new.va :=
    (List.prefix_iff_eq_take.mp (List.takeWhile_prefix _)).symm
  unfold insertBisecting insert
  rw [h.place_lt, hoverlaps]
  dsimp only
  rw [htake, hnext]

theorem Spread.readBisecting?_eq (h : m.Spread) (va size : Nat) :
    m.readBisecting? va size = m.read? va size := by
  unfold readBisecting? read? blockAt?
  rw [h.place_le, getLast?_of_prefix (List.takeWhile_prefix _)]
  dsimp only
  split <;> rfl

end BlockMemory

end CaptureForest
