import CaptureForest.Memory.Blocks
import Mathlib.Data.List.Basic
import Mathlib.Data.List.TakeWhile
import Mathlib.Data.Nat.SuccPred

/-! # Stored blocks

Whatever is asked to be stored, the blocks of a memory stand in ascending order and none runs into
the next one (`BlockMemory.Spread`). With that the two neighbours of a new block decide for all
blocks whether it fits. A block stops short of the largest address, so what blocks hold there is no
matter, and an empty block holds its place against blocks around it (`Block.FitsBeside`). -/

namespace CaptureForest

namespace Block

variable {a b new : Block} {n : Nat}

/-- The block holds the byte at an address. No byte is behind the largest address. -/
def Covers (b : Block) (n : Nat) : Prop := b.va ≤ n ∧ n < b.va + b.bytes.size ∧ n ≤ maxAddress

/-- The address is not before the block and before its stop. -/
def Spans (b : Block) (n : Nat) : Prop := b.va ≤ n ∧ n < b.stop

/-- A block spans what it covers but for the largest address. -/
theorem spans_iff : b.Spans n ↔ b.Covers n ∧ n ≠ maxAddress := by
  unfold Spans Covers stop
  omega

theorem va_le_stop (h : b.va ≤ maxAddress) : b.va ≤ b.stop := by
  unfold stop
  omega

/-- One of the blocks starts within the other; a block that is stored does so also where the new
one starts. -/
def Collides (new b : Block) : Prop := new.Spans b.va ∨ b.va < new.va ∧ b.Spans new.va

/-- A new block can be stored beside a block. -/
structure FitsBeside (new b : Block) : Prop where
  /-- The two share no address but the largest. -/
  apart : ∀ n, new.Covers n → b.Covers n → n = maxAddress
  /-- The new block keeps clear of an empty block. -/
  around : b.bytes.size = 0 → new.Covers b.va → b.va = maxAddress
  /-- A new block that is empty is not within the other one. -/
  inside : new.bytes.size = 0 → b.Covers new.va → new.va = b.va ∨ new.va = maxAddress

theorem fitsBeside_iff : new.FitsBeside b ↔ ¬new.Collides b := by
  refine ⟨fun h hc => ?_, fun h => ⟨fun n hn hb => ?_, fun _ hn => ?_, fun _ hb => ?_⟩⟩
  · rcases hc with hspans | ⟨hlt, hspans⟩
    · obtain ⟨hcovers, hne⟩ := spans_iff.mp hspans
      by_cases hempty : b.bytes.size = 0
      · exact hne (h.around hempty hcovers)
      · exact hne (h.apart _ hcovers ⟨le_rfl, by omega, hcovers.2.2⟩)
    · obtain ⟨hcovers, hne⟩ := spans_iff.mp hspans
      by_cases hempty : new.bytes.size = 0
      · exact (h.inside hempty hcovers).elim hlt.ne' hne
      · exact hne (h.apart _ ⟨le_rfl, by omega, hcovers.2.2⟩ hcovers)
  · by_contra hne
    obtain ⟨hle, hlt⟩ := spans_iff.mpr ⟨hn, hne⟩
    obtain ⟨hle', hlt'⟩ := spans_iff.mpr ⟨hb, hne⟩
    rcases Nat.lt_or_ge b.va new.va with hva | hva
    · exact h (.inr ⟨hva, hva.le, hle.trans_lt hlt'⟩)
    · exact h (.inl ⟨hva, hle'.trans_lt hlt⟩)
  · by_contra hne
    exact h (.inl (spans_iff.mpr ⟨hn, hne⟩))
  · by_contra hne
    rw [not_or] at hne
    exact h (.inr ⟨lt_of_le_of_ne hb.1 (Ne.symm hne.1), spans_iff.mpr ⟨hb, hne.2⟩⟩)

end Block

namespace BlockMemory

variable {m m' : BlockMemory} {a b new : Block} {va : Nat}

/-- The blocks ascend, and each stops before the next one starts. -/
structure Spread (m : BlockMemory) : Prop where
  le_max : ∀ b ∈ m.blocks, b.va ≤ maxAddress
  stops : m.blocks.Pairwise fun a b => a.stop ≤ b.va

theorem Spread.ascending (h : m.Spread) : m.blocks.Pairwise fun a b => a.va ≤ b.va :=
  h.stops.imp_of_mem fun ha _ hab => (Block.va_le_stop (h.le_max _ ha)).trans hab

/-! ## Neighbours -/

theorem below_append_above (m : BlockMemory) (va : Nat) : m.below va ++ m.above va = m.blocks :=
  List.takeWhile_append_dropWhile

theorem mem_blocks_iff : b ∈ m.blocks ↔ b ∈ m.below va ∨ b ∈ m.above va := by
  rw [← below_append_above m va, List.mem_append]

theorem lt_of_mem_below (h : b ∈ m.below va) : b.va < va := by
  simpa using List.mem_takeWhile_imp h

theorem le_of_above_eq {rest : List Block} (h : m.above va = b :: rest) : va ≤ b.va := by
  have hhead := List.head?_dropWhile_not (fun b : Block => decide (b.va < va)) m.blocks
  unfold above at h
  rw [h] at hhead
  simpa using hhead

/-- The first of the blocks above is where they begin. -/
theorem Spread.above_cases (h : m.Spread) (hb : b ∈ m.above va) :
    ∃ c, (m.above va).head? = some c ∧ va ≤ c.va ∧ c.va ≤ b.va := by
  obtain ⟨c, rest, hsplit⟩ := List.exists_cons_of_ne_nil (List.ne_nil_of_mem hb)
  have hascending : (c :: rest).Pairwise fun a b => a.va ≤ b.va :=
    hsplit ▸ h.ascending.sublist (List.dropWhile_sublist _)
  refine ⟨c, by rw [hsplit]; rfl, le_of_above_eq hsplit, ?_⟩
  rw [hsplit] at hb
  rcases List.mem_cons.mp hb with rfl | hrest
  · exact le_rfl
  · exact (List.pairwise_cons.mp hascending).1 b hrest

/-- All blocks below but the last stop before the last one starts. -/
theorem Spread.below_cases (h : m.Spread) (hb : b ∈ m.below va) :
    ∃ c, (m.below va).getLast? = some c ∧ (b = c ∨ b.stop ≤ c.va) := by
  obtain ⟨front, last, hsplit⟩ :=
    (List.eq_nil_or_concat' (m.below va)).resolve_left (List.ne_nil_of_mem hb)
  have hstops : (front ++ [last]).Pairwise fun a b => a.stop ≤ b.va :=
    hsplit ▸ h.stops.sublist (List.takeWhile_sublist _)
  refine ⟨last, by rw [hsplit, List.getLast?_concat], ?_⟩
  rw [hsplit] at hb
  rcases List.mem_append.mp hb with hfront | hlast
  · exact .inr ((List.pairwise_append.mp hstops).2.2 b hfront last List.mem_cons_self)
  · exact .inl (List.mem_singleton.mp hlast)

theorem Spread.le_of_mem_above (h : m.Spread) (hb : b ∈ m.above va) : va ≤ b.va := by
  obtain ⟨_, -, hle, hle'⟩ := h.above_cases hb
  exact hle.trans hle'

/-- The neighbours of a new block tell whether it collides with any block. -/
theorem Spread.overlaps_iff (h : m.Spread) : m.overlaps new ↔ ∃ b ∈ m.blocks, new.Collides b := by
  rw [overlaps, Bool.or_eq_true, Option.any_eq_true, Option.any_eq_true]
  simp only [decide_eq_true_eq]
  constructor
  · rintro (⟨b, hb, hlt⟩ | ⟨b, hb, hlt⟩)
    · have hbelow := List.mem_of_getLast? hb
      have hva := lt_of_mem_below hbelow
      exact ⟨b, mem_blocks_iff.mpr (.inl hbelow), .inr ⟨hva, hva.le, hlt⟩⟩
    · have habove := List.mem_of_head? hb
      exact ⟨b, mem_blocks_iff.mpr (.inr habove), .inl ⟨h.le_of_mem_above habove, hlt⟩⟩
  · rintro ⟨b, hb, ⟨hle, hlt⟩ | ⟨hva, -, hlt⟩⟩
    · have habove : b ∈ m.above new.va := (mem_blocks_iff.mp hb).resolve_left fun hbelow =>
        absurd (lt_of_mem_below hbelow) (Nat.not_lt.mpr hle)
      obtain ⟨c, hc, -, hle'⟩ := h.above_cases habove
      exact .inr ⟨c, hc, hle'.trans_lt hlt⟩
    · have hbelow : b ∈ m.below new.va := (mem_blocks_iff.mp hb).resolve_right fun habove =>
        absurd (h.le_of_mem_above habove) (Nat.not_le.mpr hva)
      obtain ⟨c, hc, rfl | hstop⟩ := h.below_cases hbelow
      · exact .inl ⟨b, hc, hlt⟩
      · exact absurd (hstop.trans_lt (lt_of_mem_below (List.mem_of_getLast? hc)))
          (Nat.not_lt.mpr hlt.le)

/-! ## Insertions -/

/-- The memory with a new block between those that start before it and the others. -/
def withBlock (m : BlockMemory) (new : Block) : BlockMemory :=
  { blocks := m.below new.va ++ new :: m.above new.va }

theorem withBlock_perm : (m.withBlock new).blocks.Perm (new :: m.blocks) := by
  refine List.perm_middle.trans ?_
  rw [below_append_above]

/-- A block is stored if it fits beside all others, and rejected otherwise. -/
theorem Spread.insert_cases (h : m.Spread) (new : Block) :
    (∀ b ∈ m.blocks, new.FitsBeside b) ∧ m.insert new = .ok (m.withBlock new) ∨
      (¬∀ b ∈ m.blocks, new.FitsBeside b) ∧ m.insert new = .error (.blockOverlap new.va) := by
  have hfits : (∀ b ∈ m.blocks, new.FitsBeside b) ↔ ¬m.overlaps new := by
    simp only [h.overlaps_iff, Block.fitsBeside_iff, not_exists, not_and]
  rw [hfits]
  by_cases hoverlaps : m.overlaps new
  · exact .inr ⟨not_not.mpr hoverlaps, if_pos hoverlaps⟩
  · exact .inl ⟨hoverlaps, if_neg hoverlaps⟩

/-- A block that fits leaves the blocks spread. -/
theorem Spread.withBlock (h : m.Spread) (hnew : new.va ≤ maxAddress)
    (hfits : ∀ b ∈ m.blocks, new.FitsBeside b) : (m.withBlock new).Spread where
  le_max b hb := by
    rcases List.mem_cons.mp (withBlock_perm.mem_iff.mp hb) with rfl | hb
    · exact hnew
    · exact h.le_max b hb
  stops := by
    have hstops := h.stops
    rw [← below_append_above m new.va] at hstops
    obtain ⟨hbelow, habove, hacross⟩ := List.pairwise_append.mp hstops
    have hcollides {b : Block} (hb : b ∈ m.blocks) : ¬new.Collides b :=
      Block.fitsBeside_iff.mp (hfits b hb)
    refine List.pairwise_append.mpr ⟨hbelow, List.pairwise_cons.mpr ⟨fun b hb => ?_, habove⟩, ?_⟩
    · have hle := h.le_of_mem_above hb
      by_contra hlt
      exact hcollides (mem_blocks_iff.mpr (.inr hb)) (.inl ⟨hle, Nat.lt_of_not_le hlt⟩)
    · intro b hb c hc
      rcases List.mem_cons.mp hc with rfl | hc
      · have hlt := lt_of_mem_below hb
        by_contra hstop
        exact hcollides (mem_blocks_iff.mpr (.inl hb))
          (.inr ⟨hlt, hlt.le, Nat.lt_of_not_le hstop⟩)
      · exact hacross b hb c hc

/-! ## Memories -/

/-- The memory after a block was asked to be stored. -/
def store (m : BlockMemory) (new : Block) : BlockMemory :=
  match m.insert new with
  | .ok m' => m'
  | .error _ => m

/-- A new memory after these blocks were asked to be stored, some of them in vain. -/
def ofBlocks (asked : List Block) : BlockMemory := asked.foldl store {}

theorem Spread.store (h : m.Spread) (hnew : new.va ≤ maxAddress) : (m.store new).Spread := by
  unfold BlockMemory.store
  rcases h.insert_cases new with ⟨hfits, heq⟩ | ⟨-, heq⟩
  · rw [heq]
    exact h.withBlock hnew hfits
  · rw [heq]
    exact h

theorem ofBlocks_spread {asked : List Block} (h : ∀ b ∈ asked, b.va ≤ maxAddress) :
    (ofBlocks asked).Spread := by
  suffices H : ∀ m : BlockMemory, m.Spread → (asked.foldl store m).Spread from
    H {} ⟨fun _ hb => (by cases hb), .nil⟩
  induction asked with
  | nil => exact fun _ hm => hm
  | cons b asked ih =>
    intro m hm
    exact ih (fun c hc => h c (List.mem_cons_of_mem _ hc)) (m.store b)
      (hm.store (h b List.mem_cons_self))

/-- Two blocks of a memory share no address but the largest. -/
theorem Spread.disjoint (h : m.Spread) :
    m.blocks.Pairwise fun a b => ∀ n, a.Covers n → b.Covers n → n = maxAddress := by
  refine h.stops.imp fun {a b} hstop n ha hb => ?_
  by_contra hne
  have hlt : n < a.stop := (Block.spans_iff.mpr ⟨ha, hne⟩).2
  exact absurd hb.1 (Nat.not_le.mpr (hlt.trans_le hstop))

/-- Whatever was asked to be stored before, a new block is stored exactly if it fits beside all
others; if not, the memory stays as it was. The blocks ascend, and no two of them share an address
but the largest. -/
theorem ofBlocks_insert {asked : List Block} (h : ∀ b ∈ asked, b.va ≤ maxAddress) {new : Block}
    (hnew : new.va ≤ maxAddress) :
    let m := ofBlocks asked
    ((∃ m', m.insert new = .ok m') ↔ ∀ b ∈ m.blocks, new.FitsBeside b) ∧
    (∀ m', m.insert new = .ok m' → m.store new = m' ∧ m'.blocks.Perm (new :: m.blocks)) ∧
    (∀ e, m.insert new = .error e → e = .blockOverlap new.va ∧ m.store new = m) ∧
    (m.store new).blocks.Pairwise (fun a b => a.va ≤ b.va) ∧
    (m.store new).blocks.Pairwise fun a b => ∀ n, a.Covers n → b.Covers n → n = maxAddress := by
  intro m
  have hm : m.Spread := ofBlocks_spread h
  have hstore := hm.store hnew
  refine ⟨?_, fun m' heq => ⟨?_, ?_⟩, fun e heq => ?_, hstore.ascending, hstore.disjoint⟩
  · rcases hm.insert_cases new with ⟨hfits, heq⟩ | ⟨hnot, heq⟩
    · exact ⟨fun _ => hfits, fun _ => ⟨_, heq⟩⟩
    · exact ⟨fun ⟨_, hok⟩ => (by cases heq.symm.trans hok), fun hfits => absurd hfits hnot⟩
  · rw [store, heq]
  · rcases hm.insert_cases new with ⟨-, hok⟩ | ⟨-, herror⟩
    · cases hok.symm.trans heq
      exact withBlock_perm
    · cases herror.symm.trans heq
  · rcases hm.insert_cases new with ⟨-, hok⟩ | ⟨-, herror⟩
    · cases hok.symm.trans heq
    · cases herror.symm.trans heq
      exact ⟨rfl, by rw [store, heq]⟩

/-- The block at `0x1001` is rejected, and an empty one is stored. Between them there is room for
one more byte. -/
theorem ofBlocks_insert_between :
    let asked : List Block := [⟨0x2000, #[1, 2]⟩, ⟨0x1000, #[3, 4]⟩, ⟨0x1001, #[5]⟩, ⟨0x1003, #[]⟩]
    let new : Block := ⟨0x1002, #[6]⟩
    (∀ b ∈ asked, b.va ≤ maxAddress) ∧ new.va ≤ maxAddress ∧
      (ofBlocks asked).blocks = [⟨0x1000, #[3, 4]⟩, ⟨0x1003, #[]⟩, ⟨0x2000, #[1, 2]⟩] ∧
      ∀ b ∈ (ofBlocks asked).blocks, new.FitsBeside b := by
  intro asked new
  have hasked : ∀ b ∈ asked, b.va ≤ maxAddress := by decide
  have hnew : new.va ≤ maxAddress := by decide
  have hok : ∃ m', (ofBlocks asked).insert new = .ok m' := ⟨_, rfl⟩
  exact ⟨hasked, hnew, by decide, (ofBlocks_insert hasked hnew).1.mp hok⟩

/-- Two blocks that both cover the largest address are stored, and an empty block, which covers no
address, is rejected. -/
theorem ofBlocks_insert_top :
    let first : Block := ⟨maxAddress, #[1]⟩
    let second : Block := ⟨maxAddress, #[2]⟩
    let empty : Block := ⟨1, #[]⟩
    first.Covers maxAddress ∧ second.Covers maxAddress ∧
      (ofBlocks [first]).insert second = .ok { blocks := [second, first] } ∧
      (∀ n, ¬empty.Covers n) ∧
      (ofBlocks [⟨0, #[1, 2]⟩]).insert empty = .error (.blockOverlap 1) := by
  intro first second empty
  have hcovers (byte : UInt8) : Block.Covers ⟨maxAddress, #[byte]⟩ maxAddress :=
    ⟨le_rfl, Nat.lt_succ_self _, le_rfl⟩
  refine ⟨hcovers 1, hcovers 2, rfl, fun n hn => ?_, rfl⟩
  exact absurd hn.2.1 (Nat.not_lt.mpr hn.1)

end BlockMemory

end CaptureForest
