import CaptureForest.Proofs.Memory.Blocks
import CaptureForest.Walk.Step

/-! # Resident ranges

A range is taken for resident if its two ends can be read. In a flat memory all that lies between
the ends can then be read as well (`Reader.Complete`). Blocks of memory may leave a gap between
them: there a range is complete if one block holds both ends, and otherwise it has the bytes that
some block covers, and no others (`Reader.isResident_complete`). -/

namespace CaptureForest

/-! ## Slices -/

theorem isSome_slice?_iff {bytes : Bytes} {start size : Nat} :
    (slice? bytes start size).isSome ↔ start + size ≤ bytes.size := by
  unfold slice?
  split <;> simp_all

/-- The whole range lies in the block. -/
def Block.Holds (b : Block) (va size : Nat) : Prop := b.va ≤ va ∧ va + size ≤ b.va + b.bytes.size

theorem Block.Holds.mono {b : Block} {va size a n : Nat} (h : b.Holds va size) (hle : va ≤ a)
    (hle' : a + n ≤ va + size) : b.Holds a n :=
  ⟨h.1.trans hle, hle'.trans h.2⟩

namespace BlockMemory

variable {m : BlockMemory} {b : Block} {va size a n : Nat}

theorem blockAt?_mem (h : m.blockAt? a = some b) : b ∈ m.blocks ∧ b.va ≤ a := by
  have hmem := List.mem_of_getLast? h
  exact ⟨(List.takeWhile_sublist _).subset hmem, by simpa using List.mem_takeWhile_imp hmem⟩

/-- A read lies in the block that its first address falls to. -/
theorem isSome_read?_iff : (m.read? a n).isSome ↔ ∃ b, m.blockAt? a = some b ∧ b.Holds a n := by
  cases hb : m.blockAt? a with
  | none => simp [read?, hb]
  | some b =>
    have hle := (blockAt?_mem hb).2
    have hiff : a - b.va + n ≤ b.bytes.size ↔ b.Holds a n := by
      unfold Block.Holds
      omega
    simp [read?, hb, isSome_slice?_iff, hiff]

/-- An address falls to the block that spans it. -/
theorem Spread.blockAt?_eq (h : m.Spread) (hb : b ∈ m.blocks) (ha : b.Spans a) :
    m.blockAt? a = some b := by
  obtain ⟨front, back, hsplit⟩ := List.append_of_mem hb
  have hascending := h.ascending
  have hstops := h.stops
  rw [hsplit, List.pairwise_append] at hascending hstops
  have hfront : ∀ c ∈ front, c.va ≤ a := fun c hc =>
    (hascending.2.2 c hc b List.mem_cons_self).trans ha.1
  have hback : ∀ c ∈ back, ¬c.va ≤ a := fun c hc =>
    Nat.not_le.mpr (ha.2.trans_le ((List.pairwise_cons.mp hstops.2.1).1 c hc))
  have htake : m.blocks.takeWhile (fun c => decide (c.va ≤ a)) = front ++ [b] := by
    rw [hsplit, List.takeWhile_append_of_pos (by simpa using hfront),
      List.takeWhile_cons_of_pos (by simpa using ha.1)]
    cases back with
    | nil => rfl
    | cons c back => rw [List.takeWhile_cons_of_neg (by simpa using hback c List.mem_cons_self)]
  rw [blockAt?, htake, List.getLast?_concat]

/-- What a block holds can be read. -/
theorem Spread.isSome_read? (h : m.Spread) (hb : b ∈ m.blocks) (hold : b.Holds a n) (hn : 0 < n)
    (ha : a < maxAddress) : (m.read? a n).isSome := by
  have hspans : b.Spans a := by
    unfold Block.Holds at hold
    unfold Block.Spans Block.stop
    omega
  exact isSome_read?_iff.mpr ⟨b, h.blockAt?_eq hb hspans, hold⟩

/-- The bytes that can be read are those that a block covers. -/
theorem Spread.isSome_byte_iff (h : m.Spread) (ha : a < maxAddress) :
    (m.read? a 1).isSome ↔ ∃ b ∈ m.blocks, b.Covers a := by
  constructor
  · intro hread
    obtain ⟨b, hb, hle, hlt⟩ := isSome_read?_iff.mp hread
    exact ⟨b, (blockAt?_mem hb).1, hle, hlt, ha.le⟩
  · rintro ⟨b, hb, hle, hlt, -⟩
    exact h.isSome_read? hb ⟨hle, hlt⟩ Nat.one_pos ha

end BlockMemory

namespace Reader

variable {m : Reader} {submit va size : Nat}

/-- Everything that lies within the range can be read. -/
def Complete (m : Reader) (submit va size : Nat) : Prop :=
  ∀ a n, 0 < n → va ≤ a → a + n ≤ va + size → (m.read? submit a n).isSome

/-- The length of the two ends of a range that are looked at. -/
def probe (size : Nat) : Nat := min size 4

theorem isResident_iff : m.isResident submit va size ↔ size = 0 ∨
    va + (size - probe size) ≤ maxAddress ∧ (m.read? submit va (probe size)).isSome ∧
      (m.read? submit (va + (size - probe size)) (probe size)).isSome := by
  unfold isResident probe
  simp [and_assoc]

/-- In a flat memory the ends of a range tell whether it is there. -/
theorem complete_of_isResident_flat {bytes : Bytes}
    (h : (flat bytes).isResident submit va size) : (flat bytes).Complete submit va size := by
  intro a n hn hle hle'
  refine isSome_slice?_iff.mpr ?_
  rcases isResident_iff.mp h with rfl | ⟨-, -, htail⟩
  · omega
  · have hlast := isSome_slice?_iff.mp htail
    have hprobe : probe size ≤ size := Nat.min_le_left ..
    omega

/-- One block that holds a range makes it complete. -/
theorem complete_of_holds {m : BlockMemory} {b : Block} (h : m.Spread) (hb : b ∈ m.blocks)
    (hold : b.Holds va size) (hmax : va + size ≤ maxAddress) :
    (blocks m).Complete submit va size := fun a n hn hle hle' =>
  h.isSome_read? hb (hold.mono hle hle') hn (by omega)

/-- A range that is taken for resident is complete in a flat memory, so a buffer that is not skipped
can be read as a whole. In blocks of memory each of its two ends lies within a block; the range is
complete if that is one block, and in any case it has the bytes that a block covers, and no others.
The largest address is left out of account here. -/
theorem isResident_complete (submit va size : Nat) :
    (∀ bytes, (flat bytes).isResident submit va size → (flat bytes).Complete submit va size) ∧
    (∀ bytes constantEngine lo hi word,
      let ib := IndirectBuffer.ofWords (flat bytes) submit constantEngine lo hi word
      ¬ib.skip → (flat bytes).Complete submit ib.va ib.sizeInBytes) ∧
    ∀ asked : List Block, (∀ b ∈ asked, b.va ≤ maxAddress) →
      let m := BlockMemory.ofBlocks asked
      (blocks m).isResident submit va size → 0 < size →
        (∃ first ∈ m.blocks, ∃ last ∈ m.blocks, first.Holds va (probe size) ∧
          last.Holds (va + (size - probe size)) (probe size) ∧
          (first = last → va + size ≤ maxAddress → (blocks m).Complete submit va size)) ∧
        ∀ a, va ≤ a → a < va + size → a < maxAddress →
          (((blocks m).read? submit a 1).isSome ↔ ∃ b ∈ m.blocks, b.Covers a) := by
  refine ⟨fun bytes => complete_of_isResident_flat, fun bytes constantEngine lo hi word hskip => ?_,
    fun asked hasked hresident hsize => ?_⟩
  · refine complete_of_isResident_flat ?_
    simpa [IndirectBuffer.ofWords, IndirectBuffer.sizeInBytes] using hskip
  · let m := BlockMemory.ofBlocks asked
    have hm : m.Spread := BlockMemory.ofBlocks_spread hasked
    refine ⟨?_, fun a _ _ ha => hm.isSome_byte_iff ha⟩
    obtain ⟨-, hhead, htail⟩ := (isResident_iff.mp hresident).resolve_left hsize.ne'
    obtain ⟨first, hfirst, hholds⟩ := BlockMemory.isSome_read?_iff.mp hhead
    obtain ⟨last, hlast, hholds'⟩ := BlockMemory.isSome_read?_iff.mp htail
    have hmem := (BlockMemory.blockAt?_mem hfirst).1
    refine ⟨first, hmem, last, (BlockMemory.blockAt?_mem hlast).1, hholds, hholds', ?_⟩
    rintro rfl hmax
    have hrange : first.Holds va size := by
      unfold Block.Holds at *
      have hprobe : probe size ≤ size := Nat.min_le_left ..
      omega
    exact complete_of_holds hm hmem hrange hmax

/-- Seven bytes of flat memory, and a range that begins in one block and ends in the next. -/
theorem isResident_complete_adjacent :
    let asked : List Block := [⟨0x1008, #[9, 9, 9, 9, 9]⟩, ⟨0x1000, #[1, 2, 3, 4, 5, 6, 7, 8]⟩]
    let m := BlockMemory.ofBlocks asked
    (flat #[1, 2, 3, 4, 5, 6, 7]).isResident 3 2 5 ∧
      ((flat #[1, 2, 3, 4, 5, 6, 7]).read? 3 3 4).isSome ∧
      (∀ b ∈ asked, b.va ≤ maxAddress) ∧ (blocks m).isResident 3 0x1002 11 ∧
      (((blocks m).read? 3 0x1007 1).isSome ↔ ∃ b ∈ m.blocks, b.Covers 0x1007) := by
  intro asked m
  have hasked : ∀ b ∈ asked, b.va ≤ maxAddress := by decide
  have hflat : (flat #[1, 2, 3, 4, 5, 6, 7]).isResident 3 2 5 := by decide
  have hblocks : (blocks m).isResident 3 0x1002 11 := by decide
  refine ⟨hflat, (isResident_complete 3 2 5).1 _ hflat 3 4 (by decide) (by decide) (by decide),
    hasked, hblocks, ?_⟩
  exact ((isResident_complete 3 0x1002 11).2.2 asked hasked hblocks (by decide)).2 0x1007
    (by decide) (by decide) (by decide)

/-- Between two blocks four bytes are missing, and the range over both is still taken for
resident. -/
theorem isResident_gap :
    let m := BlockMemory.ofBlocks [⟨0, #[0, 0, 0, 0]⟩, ⟨8, #[0, 0, 0, 0]⟩]
    (blocks m).isResident 0 0 12 ∧ (blocks m).read? 0 4 1 = none := by
  decide

end Reader

end CaptureForest
