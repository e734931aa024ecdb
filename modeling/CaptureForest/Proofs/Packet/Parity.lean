import CaptureForest.Proofs.Packet.Header
import Mathlib.Algebra.BigOperators.Intervals
import Mathlib.Algebra.Group.Nat.Even

/-! # Parity bits

To fold a word is to add its upper half to its lower one, bit by bit and without carries. That keeps
the parity of the number of ones (`Header.lowOnes_fold`), so in the end one bit tells it, and the
parity bit is 1 exactly if the number of ones in the word is even (`Header.oddParity_eq`). Instead
of the last two folds, four bits can be looked up in a table of sixteen (`Header.tableParity_eq`).
-/

namespace CaptureForest.Header

variable {v : UInt32} {x : BitVec 32} {k : Nat}

/-- A bit as a number. -/
def bit (x : BitVec 32) (i : Nat) : Nat := (x.getLsbD i).toNat

/-- The number of ones among the lowest `k` bits. -/
def lowOnes (x : BitVec 32) (k : Nat) : Nat := ∑ i ∈ Finset.range k, bit x i

def fold (x : BitVec 32) (k : Nat) : BitVec 32 := x ^^^ x >>> k

/-- The parity bit, with a table for words of four bits. -/
def tableParity (v : UInt32) : UInt32 :=
  let v := v ^^^ (v >>> 16)
  let v := v ^^^ (v >>> 8)
  (~~~(0x6996 : UInt32) >>> ((v ^^^ (v >>> 4)) &&& 0xf)) &&& 1

theorem lowOnes_eq_cpop : lowOnes x 32 = x.cpop.toNat := by
  have hrec (k : Nat) : x.cpopNatRec k 0 = lowOnes x k := by
    induction k with
    | zero => rfl
    | succ k ih =>
      rw [BitVec.cpopNatRec_succ, BitVec.cpopNatRec_eq, ih, Nat.zero_add]
      exact (Finset.sum_range_succ (bit x) k).symm
  rw [BitVec.toNat_cpop, hrec]

theorem bit_fold (i : Nat) : bit (fold x k) i % 2 = (bit x i + bit x (k + i)) % 2 := by
  unfold bit fold
  rw [BitVec.getLsbD_xor, BitVec.getLsbD_ushiftRight]
  cases x.getLsbD i <;> cases x.getLsbD (k + i) <;> rfl

/-- A fold keeps the parity of the number of ones. -/
theorem lowOnes_fold (x : BitVec 32) (k : Nat) :
    lowOnes (fold x k) k % 2 = lowOnes x (k + k) % 2 := by
  unfold lowOnes
  rw [Finset.sum_range_add, ← Finset.sum_add_distrib, Finset.sum_nat_mod,
    Finset.sum_nat_mod _ _ fun i => bit x i + bit x (k + i)]
  simp only [bit_fold]

/-- Three folds leave the parity to the lowest four bits. -/
theorem lowOnes_folds (x : BitVec 32) :
    lowOnes (fold (fold (fold x 16) 8) 4) 4 % 2 = x.cpop.toNat % 2 := calc
  _ = lowOnes (fold (fold x 16) 8) (4 + 4) % 2 := lowOnes_fold _ 4
  _ = lowOnes (fold x 16) (8 + 8) % 2 := lowOnes_fold _ 8
  _ = lowOnes x (16 + 16) % 2 := lowOnes_fold _ 16
  _ = x.cpop.toNat % 2 := congrArg (· % 2) lowOnes_eq_cpop

/-- The parity bit of a word is told by four bits. -/
theorem even_cpop_iff (x : BitVec 32) :
    Even x.cpop.toNat ↔ Even (lowOnes (fold (fold (fold x 16) 8) 4) 4) := by
  rw [Nat.even_iff, Nat.even_iff, lowOnes_folds]

/-- Two more folds leave it to the last bit. -/
theorem lastBit_eq (x : BitVec 32) :
    (UInt32.ofBitVec (fold (fold x 2) 1) ^^^ 1) &&& 1 = if Even (lowOnes x 4) then 1 else 0 := by
  have hparity : lowOnes (fold (fold x 2) 1) 1 % 2 = lowOnes x 4 % 2 :=
    (lowOnes_fold (fold x 2) 1).trans (lowOnes_fold x 2)
  have hbit : Even (lowOnes x 4) ↔ (fold (fold x 2) 1).getLsbD 0 = false := by
    rw [Nat.even_iff, ← hparity, lowOnes, Finset.sum_range_one, bit]
    cases (fold (fold x 2) 1).getLsbD 0 <;> decide
  simp only [hbit, BitVec.getLsbD_eq_getElem (show 0 < 32 by decide)]
  generalize fold (fold x 2) 1 = y
  refine eq_of_bits fun i hi => ?_
  cases hy : y[0] <;> interval_cases i <;> simp [hy]

/-- The table has a bit for each of the sixteen words of four bits. -/
theorem tableBit_eq (v : UInt32) :
    (~~~(0x6996 : UInt32) >>> (v &&& 0xf)) &&& 1 =
      if Even (lowOnes v.toBitVec 4) then 1 else 0 := by
  have hlow : lowOnes v.toBitVec 4 = lowOnes (v &&& 0xf).toBitVec 4 := by
    refine Finset.sum_congr rfl fun i hi => ?_
    rw [Finset.mem_range] at hi
    interval_cases i <;> simp [bit]
  have hall : ∀ n : Fin 16, (~~~(0x6996 : UInt32) >>> UInt32.ofNat n) &&& 1 =
      if Even (lowOnes (UInt32.ofNat n).toBitVec 4) then 1 else 0 := by
    decide
  have hlt : (v &&& 0xf).toNat < 16 := by
    rw [UInt32.toNat_and]
    exact Nat.lt_succ_of_le Nat.and_le_right
  rw [hlow]
  generalize v &&& 0xf = w at hlt
  rw [← UInt32.ofNat_toNat (x := w)]
  exact hall ⟨w.toNat, hlt⟩

/-- The parity bit is 1 if the number of ones is even, and 0 otherwise. -/
theorem oddParity_eq (v : UInt32) :
    oddParity v = if Even v.toBitVec.cpop.toNat then 1 else 0 := by
  simp only [even_cpop_iff]
  exact lastBit_eq _

/-- The table gives the same parity bit. -/
theorem tableParity_eq (v : UInt32) : tableParity v = oddParity v := by
  rw [oddParity_eq]
  simp only [even_cpop_iff]
  exact tableBit_eq (UInt32.ofBitVec (fold (fold (fold v.toBitVec 16) 8) 4))

end CaptureForest.Header
