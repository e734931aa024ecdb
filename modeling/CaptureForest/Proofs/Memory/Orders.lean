import CaptureForest.Proofs.Memory.Resident
import CaptureForest.Proofs.Memory.Search
import Mathlib.Data.List.Pairwise

/-! # Blocks in any order

Blocks that share no address can be stored in every order, and what comes of it is the same memory.
A read gives the bytes of the block that holds the whole range. If no block does, some byte of the
range is missing or the range runs from one block into another, and the read fails
(`BlockMemory.stored_in_any_order`). -/

namespace CaptureForest

variable {a b c : Block} {va size : Nat} {asked order : List Block}

/-! ## Blocks that share no address -/

namespace Block

/-- The two share no address. -/
def Apart (a b : Block) : Prop := ∀ n, a.Covers n → ¬b.Covers n

theorem Apart.symm (h : a.Apart b) : b.Apart a := fun n hb ha => h n ha hb

theorem Apart.of_le (h : b.va + b.bytes.size ≤ a.va) : a.Apart b := fun n ha hb => by
  unfold Covers at ha hb
  omega

/-- The block is not empty, and it ends at the largest address or before it. -/
structure Proper (b : Block) : Prop where
  pos : 0 < b.bytes.size
  stop_le : b.va + b.bytes.size ≤ maxAddress

theorem Proper.va_le (h : b.Proper) : b.va ≤ maxAddress := (Nat.le_add_right _ _).trans h.stop_le

theorem Proper.stop_eq (h : b.Proper) : b.stop = b.va + b.bytes.size := Nat.min_eq_left h.stop_le

/-- A range that lies in the block covers its addresses. -/
theorem Proper.covers (h : b.Proper) {n : Nat} (hold : b.Holds va size) (hle : va ≤ n)
    (hlt : n < va + size) : b.Covers n := by
  have := h.stop_le
  unfold Holds at hold
  unfold Covers
  omega

theorem Apart.fitsBeside (h : a.Apart b) (ha : a.Proper) (hb : b.Proper) : a.FitsBeside b where
  apart n hn hn' := absurd hn' (h n hn)
  around hempty := absurd hempty hb.pos.ne'
  inside hempty := absurd hempty ha.pos.ne'

end Block

namespace BlockMemory

variable {m m' : BlockMemory}

/-- Blocks that share no address with others, nor with those that are stored, are all stored. -/
theorem Spread.exists_stored (h : m.Spread) (hproper : ∀ b ∈ order ++ m.blocks, b.Proper)
    (hapart : (order ++ m.blocks).Pairwise Block.Apart) :
    ∃ m', order.foldlM insert m = .ok m' ∧ order.foldlM insertBisecting m = .ok m' ∧ m'.Spread ∧
      m'.blocks.Perm (order ++ m.blocks) := by
  induction order generalizing m with
  | nil => exact ⟨m, rfl, rfl, h, .refl _⟩
  | cons new order ih =>
    have hnew : new.Proper := hproper new List.mem_cons_self
    obtain ⟨hnext, hothers⟩ := List.pairwise_cons.mp hapart
    have hfits : ∀ b ∈ m.blocks, new.FitsBeside b := fun b hb =>
      (hnext b (List.mem_append_right _ hb)).fitsBeside hnew
        (hproper b (List.mem_cons_of_mem _ (List.mem_append_right _ hb)))
    have hinsert : m.insert new = .ok (m.withBlock new) := by
      rcases h.insert_cases new with ⟨-, hok⟩ | ⟨hnot, -⟩
      · exact hok
      · exact absurd hfits hnot
    have hperm : (order ++ (m.withBlock new).blocks).Perm (new :: order ++ m.blocks) :=
      (withBlock_perm.append_left order).trans List.perm_middle
    obtain ⟨m', hm', hbisecting, hspread, hblocks⟩ := ih (h.withBlock hnew.va_le hfits)
      (fun b hb => hproper b (hperm.mem_iff.mp hb))
      ((hperm.pairwise_iff Block.Apart.symm).mpr hapart)
    refine ⟨m', ?_, ?_, hspread, hblocks.trans hperm⟩
    · rw [List.foldlM_cons, hinsert]
      exact hm'
    · rw [List.foldlM_cons, h.insertBisecting_eq, hinsert]
      exact hbisecting

/-- A memory is told by what blocks it has, if none is empty. -/
theorem Spread.eq_of_perm (h : m.Spread) (h' : m'.Spread) (hproper : ∀ b ∈ m.blocks, b.Proper)
    (hperm : m.blocks.Perm m'.blocks) : m = m' := by
  have hblocks : m.blocks = m'.blocks := by
    refine hperm.eq_of_pairwise (fun a b ha hb hab hba => ?_) h.stops h'.stops
    have hstop := (hproper a ha).stop_eq
    have hstop' := (hproper b (hperm.mem_iff.mpr hb)).stop_eq
    have hpos := (hproper a ha).pos
    omega
  cases m
  cases m'
  exact congrArg BlockMemory.mk hblocks

/-! ## Reads -/

/-- A read gives the bytes of the block that holds the range. -/
theorem Spread.read?_eq_some (h : m.Spread) (hb : b ∈ m.blocks) (hproper : b.Proper)
    (hold : b.Holds va size) (hsize : 0 < size) :
    m.read? va size = some (b.bytes.extract (va - b.va) (va - b.va + size)) := by
  have hspans : b.Spans va := by
    unfold Block.Spans
    rw [hproper.stop_eq]
    unfold Block.Holds at hold
    omega
  rw [read?, h.blockAt?_eq hb hspans]
  refine if_pos ?_
  unfold Block.Holds at hold
  omega

/-- A range that no block holds cannot be read. -/
theorem read?_eq_none (hnone : ¬∃ b ∈ m.blocks, b.Holds va size) : m.read? va size = none := by
  rw [← Option.not_isSome_iff_eq_none, isSome_read?_iff]
  rintro ⟨b, hb, hold⟩
  exact hnone ⟨b, (blockAt?_mem hb).1, hold⟩

/-- No block holds a range if and only if one of its addresses is in no block, or two of them are in
two blocks. -/
theorem not_held_iff (hproper : ∀ b ∈ asked, b.Proper) (hapart : asked.Pairwise Block.Apart)
    (hsize : 0 < size) : (¬∃ b ∈ asked, b.Holds va size) ↔
      (∃ n, va ≤ n ∧ n < va + size ∧ ∀ b ∈ asked, ¬b.Covers n) ∨
        ∃ b ∈ asked, ∃ c ∈ asked, b ≠ c ∧ (∃ n, va ≤ n ∧ n < va + size ∧ b.Covers n) ∧
          ∃ n, va ≤ n ∧ n < va + size ∧ c.Covers n := by
  constructor
  · intro hnone
    refine or_iff_not_imp_left.mpr fun hall => ?_
    have hcovered (n : Nat) (hle : va ≤ n) (hlt : n < va + size) : ∃ b ∈ asked, b.Covers n := by
      by_contra hmissing
      exact hall ⟨n, hle, hlt, fun b hb hn => hmissing ⟨b, hb, hn⟩⟩
    obtain ⟨b, hb, hfirst⟩ := hcovered va le_rfl (by omega)
    obtain ⟨c, hc, hlast⟩ := hcovered (va + size - 1) (by omega) (by omega)
    refine ⟨b, hb, c, hc, ?_, ⟨va, le_rfl, by omega, hfirst⟩, _, by omega, by omega, hlast⟩
    rintro rfl
    refine hnone ⟨b, hb, ?_⟩
    unfold Block.Covers at hfirst hlast
    unfold Block.Holds
    omega
  · rintro (⟨n, hle, hlt, hmissing⟩ | ⟨b, hb, c, hc, hne, ⟨n, hle, hlt, hn⟩, n', hle', hlt', hn'⟩)
      ⟨a, ha, hold⟩
    · exact hmissing a ha ((hproper a ha).covers hold hle hlt)
    · have hsymm : Std.Symm Block.Apart := ⟨fun _ _ h => h.symm⟩
      have hone {d : Block} {k : Nat} (hd : d ∈ asked) (hle : va ≤ k) (hlt : k < va + size)
          (hk : d.Covers k) : d = a := by
        by_contra hne
        exact hapart.forall hd ha hne k hk ((hproper a ha).covers hold hle hlt)
      exact hne ((hone hb hle hlt hn).trans (hone hc hle' hlt' hn').symm)

/-- Blocks that are not empty, that share no address and that end at the largest one or before it
can be stored in every order, whichever way their places are found. What comes of it is one memory,
which has these blocks. A read that is not empty gives the bytes of the block that holds the whole
range. If there is none, then some byte is missing or the range runs over two blocks, and the read
fails with an error that names it. -/
theorem stored_in_any_order {asked : List Block} (hproper : ∀ b ∈ asked, b.Proper)
    (hapart : asked.Pairwise Block.Apart) :
    ∃ m : BlockMemory, m.blocks.Perm asked ∧
      (∀ order : List Block, order.Perm asked → order.foldlM insert {} = .ok m ∧
        order.foldlM insertBisecting {} = .ok m) ∧
      ∀ submit va size, 0 < size → m.readBisecting? va size = m.read? va size ∧
        (∀ b ∈ asked, b.Holds va size →
          ∃ bytes, (Reader.blocks m).bytes submit va size = .ok bytes ∧ bytes.size = size ∧
            ∀ i < size, bytes[i]? = b.bytes[va + i - b.va]?) ∧
        ((¬∃ b ∈ asked, b.Holds va size) →
          (Reader.blocks m).bytes submit va size = .error (.memoryRead submit va size)) ∧
        ((¬∃ b ∈ asked, b.Holds va size) ↔
          (∃ n, va ≤ n ∧ n < va + size ∧ ∀ b ∈ asked, ¬b.Covers n) ∨
            ∃ b ∈ asked, ∃ c ∈ asked, b ≠ c ∧ (∃ n, va ≤ n ∧ n < va + size ∧ b.Covers n) ∧
              ∃ n, va ≤ n ∧ n < va + size ∧ c.Covers n) := by
  have hempty : ({} : BlockMemory).Spread := ⟨fun _ hb => (by cases hb), .nil⟩
  have hstored {order : List Block} (hperm : order.Perm asked) :
      ∃ m', order.foldlM insert {} = .ok m' ∧ order.foldlM insertBisecting {} = .ok m' ∧
        m'.Spread ∧ m'.blocks.Perm asked := by
    have hperm' : (order ++ ({} : BlockMemory).blocks).Perm asked := by rwa [List.append_nil]
    obtain ⟨m', hm', hbisecting, hspread, hblocks⟩ := hempty.exists_stored
      (fun b hb => hproper b (hperm'.mem_iff.mp hb))
      ((hperm'.pairwise_iff Block.Apart.symm).mpr hapart)
    exact ⟨m', hm', hbisecting, hspread, hblocks.trans hperm'⟩
  obtain ⟨m, -, -, hm, hblocks⟩ := hstored (.refl asked)
  refine ⟨m, hblocks, fun order hperm => ?_, fun submit va size hsize =>
    ⟨hm.readBisecting?_eq va size, fun b hb hold => ?_, fun hnone => ?_,
      not_held_iff hproper hapart hsize⟩⟩
  · obtain ⟨m', hm', hbisecting, hspread, hblocks'⟩ := hstored hperm
    obtain rfl : m' = m := hspread.eq_of_perm hm (fun b hb => hproper b (hblocks'.mem_iff.mp hb))
      (hblocks'.trans hblocks.symm)
    exact ⟨hm', hbisecting⟩
  · have hread := hm.read?_eq_some (hblocks.mem_iff.mpr hb) (hproper b hb) hold hsize
    refine ⟨_, ?_, size_read? hread, fun i hi => ?_⟩
    · simp only [Reader.bytes, Reader.blocks, hread]
    · have hva : va + i - b.va = va - b.va + i := by
        have := hold.1
        omega
      have hlt : i < min (va - b.va + size) b.bytes.size - (va - b.va) := by
        unfold Block.Holds at hold
        omega
      rw [Array.getElem?_extract, if_pos hlt, hva]
  · have hread : m.read? va size = none := read?_eq_none fun ⟨b, hb, hold⟩ =>
      hnone ⟨b, hblocks.mem_iff.mp hb, hold⟩
    simp only [Reader.bytes, Reader.blocks, hread]

/-- Two blocks meet at `0x1004`, and the last byte of a third is the last one before the largest
address. The range from `0x1003` on runs over the two. -/
theorem stored_in_any_order_adjacent :
    let asked : List Block := [⟨maxAddress - 1, #[7]⟩, ⟨0x1004, #[5, 6]⟩, ⟨0x1000, #[1, 2, 3, 4]⟩]
    let order : List Block := [⟨0x1004, #[5, 6]⟩, ⟨maxAddress - 1, #[7]⟩, ⟨0x1000, #[1, 2, 3, 4]⟩]
    (∀ b ∈ asked, b.Proper) ∧ asked.Pairwise Block.Apart ∧
      ∃ m, asked.foldlM insert {} = .ok m ∧ order.foldlM insertBisecting {} = .ok m ∧
        (∃ bytes, (Reader.blocks m).bytes 3 0x1002 2 = .ok bytes ∧ bytes.size = 2 ∧
          ∀ i < 2, bytes[i]? = #[1, 2, 3, 4][0x1002 + i - 0x1000]?) ∧
        (∃ bytes, (Reader.blocks m).bytes 3 (maxAddress - 1) 1 = .ok bytes ∧ bytes.size = 1) ∧
        (Reader.blocks m).bytes 3 0x1003 2 = .error (.memoryRead 3 0x1003 2) ∧
        (Reader.blocks m).bytes 3 0xfff 2 = .error (.memoryRead 3 0xfff 2) := by
  intro asked order
  have hproper : ∀ b ∈ asked, b.Proper := by
    have hall : ∀ b ∈ asked, 0 < b.bytes.size ∧ b.va + b.bytes.size ≤ maxAddress := by decide
    exact fun b hb => ⟨(hall b hb).1, (hall b hb).2⟩
  have hapart : asked.Pairwise Block.Apart := by
    have hle : asked.Pairwise fun a b => b.va + b.bytes.size ≤ a.va := by decide
    exact hle.imp .of_le
  obtain ⟨m, -, horders, hreads⟩ := stored_in_any_order hproper hapart
  refine ⟨hproper, hapart, m, (horders asked (.refl _)).1, (horders order (.swap ..)).2,
    ?_, ?_, ?_, ?_⟩
  · exact (hreads 3 0x1002 2 (by decide)).2.1 ⟨0x1000, #[1, 2, 3, 4]⟩ (by simp [asked])
      ⟨by decide, by decide⟩
  · obtain ⟨bytes, hbytes, hsize, -⟩ := (hreads 3 (maxAddress - 1) 1 (by decide)).2.1
      ⟨maxAddress - 1, #[7]⟩ (by simp [asked]) ⟨by decide, by decide⟩
    exact ⟨bytes, hbytes, hsize⟩
  · have hnone : ∀ b ∈ asked, ¬(b.va ≤ 0x1003 ∧ 0x1003 + 2 ≤ b.va + b.bytes.size) := by decide
    exact (hreads 3 0x1003 2 (by decide)).2.2.1 fun ⟨b, hb, hold⟩ => hnone b hb hold
  · have hnone : ∀ b ∈ asked, ¬(b.va ≤ 0xfff ∧ 0xfff + 2 ≤ b.va + b.bytes.size) := by decide
    exact (hreads 3 0xfff 2 (by decide)).2.2.1 fun ⟨b, hb, hold⟩ => hnone b hb hold

end BlockMemory

end CaptureForest
