import CaptureForest.Proofs.Packet.Parity

/-! # Headers with a wrong bit

Each parity bit of a header and the field that it guards have an odd number of ones together
(`Header.registerParityOk_iff`, `Header.opcodeParityOk_iff`), and the two kinds differ in more than
one bit of the tag. So a header with a single wrong bit starts no packet, unless the bit is a
reserved one (`PacketKind.ofHeader_detects`). -/

namespace CaptureForest

namespace Header

variable {h q w : UInt32} {i j p lo n : Nat} {s : Finset Nat}

/-- The number of ones among some bits. -/
def onesAt (h : UInt32) (s : Finset Nat) : Nat := ∑ i ∈ s, bit h.toBitVec i

/-- The word with one bit the other way. -/
def flip (h : UInt32) (i : Nat) : UInt32 := h ^^^ (1 <<< UInt32.ofNat i)

/-- The bits of a field of `n` bits from `lo` on, and the parity bit that guards it. -/
def guarded (p lo n : Nat) : Finset Nat := insert p (Finset.Ico lo (lo + n))

/-! ## Flips -/

theorem toBitVec_oneBit (hi : i < 32) :
    ((1 : UInt32) <<< UInt32.ofNat i).toBitVec = BitVec.twoPow 32 i := by
  have hall : ∀ i : Fin 32, ((1 : UInt32) <<< UInt32.ofNat i).toBitVec = BitVec.twoPow 32 i := by
    decide
  exact hall ⟨i, hi⟩

theorem getLsbD_flip (hi : i < 32) :
    (flip h i).toBitVec.getLsbD j = (h.toBitVec.getLsbD j ^^ decide (i = j)) := by
  rw [flip, UInt32.toBitVec_xor, toBitVec_oneBit hi, BitVec.getLsbD_xor, BitVec.getLsbD_twoPow]
  simp [hi]

theorem bit_flip_self (hi : i < 32) : bit (flip h i).toBitVec i = 1 - bit h.toBitVec i := by
  rw [bit, bit, getLsbD_flip hi]
  cases h.toBitVec.getLsbD i <;> simp

theorem bit_flip_of_ne (hi : i < 32) (hne : i ≠ j) :
    bit (flip h i).toBitVec j = bit h.toBitVec j := by
  rw [bit, bit, getLsbD_flip hi, decide_eq_false hne, Bool.xor_false]

theorem onesAt_flip (hi : i < 32) (hs : i ∉ s) : onesAt (flip h i) s = onesAt h s :=
  Finset.sum_congr rfl fun j hj => bit_flip_of_ne hi fun heq => hs (by rwa [heq])

/-- A flip of one of some bits makes the parity of their number of ones the other one. -/
theorem odd_onesAt_flip (hi : i < 32) (hs : i ∈ s) :
    Odd (onesAt (flip h i) s) ↔ ¬Odd (onesAt h s) := by
  have hothers : onesAt (flip h i) (s.erase i) = onesAt h (s.erase i) :=
    onesAt_flip hi (Finset.notMem_erase i s)
  have hle : bit h.toBitVec i ≤ 1 := Bool.toNat_le _
  -- Of the sum only the summand for `i` changes, from 0 to 1 or from 1 to 0.
  unfold onesAt at *
  rw [← Finset.add_sum_erase s _ hs, ← Finset.add_sum_erase s _ hs, hothers, bit_flip_self hi,
    Nat.odd_iff, Nat.odd_iff]
  omega

theorem tag_flip : tag (flip h i) = tag h ^^^ tag (1 <<< UInt32.ofNat i) := by
  refine eq_of_bits fun j hj => ?_
  interval_cases j <;> simp [tag, flip]

/-! ## Fields and their parity bits -/

theorem cpop_field (hn : n ≤ 32) (hw : ∀ j < 32, w.toBitVec.getLsbD j =
    (decide (j < n) && h.toBitVec.getLsbD (lo + j))) :
    w.toBitVec.cpop.toNat = onesAt h (Finset.Ico lo (lo + n)) := by
  rw [← lowOnes_eq_cpop, onesAt, Finset.sum_Ico_eq_sum_range, Nat.add_sub_cancel_left, lowOnes,
    ← Finset.sum_subset (Finset.range_subset_range.mpr hn) fun j hj hnot => ?_]
  · refine Finset.sum_congr rfl fun j hj => ?_
    rw [Finset.mem_range] at hj
    rw [bit, hw j (hj.trans_le hn), decide_eq_true hj, Bool.true_and]
    rfl
  · rw [bit, hw j (Finset.mem_range.mp hj), decide_eq_false (mt Finset.mem_range.mpr hnot)]
    rfl

theorem toNat_and_one : (w &&& 1).toNat = bit w.toBitVec 0 := by
  rw [UInt32.toNat_and, bit, BitVec.getLsbD, Nat.testBit_zero]
  show w.toNat &&& 1 = (decide (w.toNat % 2 = 1)).toNat
  rw [Nat.and_one_is_mod]
  rcases Nat.mod_two_eq_zero_or_one w.toNat with hw | hw <;> simp [hw]

/-- A parity bit is right if it and the field that it guards have an odd number of ones. -/
theorem eq_oddParity_iff (hq : bit q.toBitVec 0 = bit h.toBitVec p)
    (hw : w.toBitVec.cpop.toNat = onesAt h (Finset.Ico lo (lo + n)))
    (hp : p ∉ Finset.Ico lo (lo + n)) :
    (q &&& 1 == oddParity w) ↔ Odd (onesAt h (guarded p lo n)) := by
  have hle : bit h.toBitVec p ≤ 1 := Bool.toNat_le _
  have hsum : onesAt h (guarded p lo n) =
      bit h.toBitVec p + onesAt h (Finset.Ico lo (lo + n)) := Finset.sum_insert hp
  rw [beq_iff_eq, ← UInt32.toNat_inj, toNat_and_one, hq, oddParity_eq, hw, hsum, Nat.odd_iff,
    apply_ite UInt32.toNat]
  simp only [Nat.even_iff, UInt32.toNat_one, UInt32.toNat_zero]
  split <;> omega

theorem registerParityOk_iff : registerParityOk h ↔
    Odd (onesAt h (guarded 7 0 7)) ∧ Odd (onesAt h (guarded 27 8 19)) := by
  have hcount : (registerCount h).toBitVec.cpop.toNat = onesAt h (Finset.Ico 0 (0 + 7)) := by
    refine cpop_field (by decide) fun j hj => ?_
    interval_cases j <;> simp [registerCount]
  have hoffset : (registerOffset h).toBitVec.cpop.toNat = onesAt h (Finset.Ico 8 (8 + 19)) := by
    refine cpop_field (by decide) fun j hj => ?_
    interval_cases j <;> simp [registerOffset]
  rw [registerParityOk, Bool.and_eq_true]
  exact and_congr (eq_oddParity_iff (by simp [bit]) hcount (by decide))
    (eq_oddParity_iff (by simp [bit]) hoffset (by decide))

theorem opcodeParityOk_iff : opcodeParityOk h ↔
    Odd (onesAt h (guarded 15 0 14)) ∧ Odd (onesAt h (guarded 23 16 7)) := by
  have hcount : (payloadCount h).toBitVec.cpop.toNat = onesAt h (Finset.Ico 0 (0 + 14)) := by
    refine cpop_field (by decide) fun j hj => ?_
    interval_cases j <;> simp [payloadCount]
  have hop : (opcode h).toUInt32.toBitVec.cpop.toNat = onesAt h (Finset.Ico 16 (16 + 7)) := by
    refine cpop_field (by decide) fun j hj => ?_
    interval_cases j <;> simp [opcode, -UInt32.toUInt32_toUInt8]
  rw [opcodeParityOk, Bool.and_eq_true]
  exact and_congr (eq_oddParity_iff (by simp [bit]) hcount (by decide))
    (eq_oddParity_iff (by simp [bit]) hop (by decide))

/-- A flip of a bit of the tag leads to the tag of no packet. -/
theorem tag_flip_of_le {i : Fin 32} (hi : 28 ≤ i.val) (htag : tag h = type4Tag ∨ tag h = type7Tag) :
    tag (flip h i) ≠ type4Tag ∧ tag (flip h i) ≠ type7Tag := by
  rw [tag_flip]
  rcases htag with htag | htag <;> rw [htag] <;> revert i <;> decide

theorem tag_flip_of_lt (hi : i < 28) : tag (flip h i) = tag h := by
  have hall : ∀ i : Fin 32, i.val < 28 → tag (1 <<< UInt32.ofNat i) = 0 := by decide
  rw [tag_flip, hall ⟨i, by omega⟩ hi, UInt32.xor_zero]

/-- All bits in front of the tag of a register write are guarded. -/
theorem not_registerParityOk_flip (hparity : registerParityOk h) (hi : i < 28) :
    ¬registerParityOk (flip h i) := by
  rw [registerParityOk_iff] at hparity ⊢
  have hlt : i < 32 := by omega
  rintro ⟨hcount, hoffset⟩
  by_cases hlow : i < 8
  · have hmem : i ∈ guarded 7 0 7 := by
      simp only [guarded, Finset.mem_insert, Finset.mem_Ico]
      omega
    exact (odd_onesAt_flip hlt hmem).mp hcount hparity.1
  · have hmem : i ∈ guarded 27 8 19 := by
      simp only [guarded, Finset.mem_insert, Finset.mem_Ico]
      omega
    exact (odd_onesAt_flip hlt hmem).mp hoffset hparity.2

/-- In front of the tag of an opcode header, bit 14 and the bits from 24 on are not guarded. -/
theorem opcodeParityOk_flip_iff (hparity : opcodeParityOk h) (hi : i < 28) :
    opcodeParityOk (flip h i) ↔ i = 14 ∨ 24 ≤ i := by
  have hlt : i < 32 := by omega
  rw [opcodeParityOk_iff] at hparity ⊢
  by_cases hcount : i ∈ guarded 15 0 14
  · have hodd := odd_onesAt_flip (h := h) hlt hcount
    simp only [guarded, Finset.mem_insert, Finset.mem_Ico] at hcount
    exact iff_of_false (fun ⟨h₁, _⟩ => hodd.mp h₁ hparity.1) (by omega)
  by_cases hop : i ∈ guarded 23 16 7
  · have hodd := odd_onesAt_flip (h := h) hlt hop
    simp only [guarded, Finset.mem_insert, Finset.mem_Ico] at hop
    exact iff_of_false (fun ⟨_, h₂⟩ => hodd.mp h₂ hparity.2) (by omega)
  · rw [onesAt_flip hlt hcount, onesAt_flip hlt hop]
    simp only [guarded, Finset.mem_insert, Finset.mem_Ico] at hcount hop
    exact iff_of_true hparity (by omega)

end Header

namespace PacketKind

open Header

variable {h : UInt32} {i : Fin 32}

theorem ofHeader_flip_eq_unknown (htag : tag h = type4Tag ∨ tag h = type7Tag)
    (hregisters : tag h = type4Tag → i.val < 28 → ¬registerParityOk (flip h i))
    (hop : tag h = type7Tag → i.val < 28 → ¬opcodeParityOk (flip h i)) :
    ofHeader (flip h i) = .unknown := by
  rw [eq_unknown, Ne, Ne, ofHeader_eq_type4, ofHeader_eq_type7]
  rcases Nat.lt_or_ge i.val 28 with hi | hi
  · rw [tag_flip_of_lt hi]
    exact ⟨fun hk => hregisters hk.1 hi hk.2, fun hk => hop hk.1 hi hk.2⟩
  · obtain ⟨h4, h7⟩ := tag_flip_of_le hi htag
    exact ⟨fun hk => h4 hk.1, fun hk => h7 hk.1⟩

theorem type4Tag_ne_type7Tag : type4Tag ≠ type7Tag := by decide

/-- A register write with a wrong bit starts no packet. -/
theorem ofHeader_flip_of_type4 (hk : ofHeader h = .type4) (i : Fin 32) :
    ofHeader (flip h i) = .unknown := by
  obtain ⟨htag, hparity⟩ := ofHeader_eq_type4.mp hk
  exact ofHeader_flip_eq_unknown (.inl htag) (fun _ => not_registerParityOk_flip hparity)
    fun h7 => absurd (htag.symm.trans h7) type4Tag_ne_type7Tag

/-- An opcode packet with a wrong bit starts no packet, unless the bit is reserved. -/
theorem ofHeader_flip_of_type7 (hk : ofHeader h = .type7) (i : Fin 32) :
    ofHeader (flip h i) = .unknown ↔ i ≠ 14 ∧ ¬(24 ≤ i ∧ i ≤ 27) := by
  obtain ⟨htag, hparity⟩ := ofHeader_eq_type7.mp hk
  have hreserved : (i ≠ 14 ∧ ¬(24 ≤ i ∧ i ≤ 27)) ↔ ¬(i.val < 28 ∧ (i.val = 14 ∨ 24 ≤ i.val)) := by
    revert i
    decide
  rw [hreserved]
  constructor
  · rintro hunknown ⟨hi, hr⟩
    have hkind : ofHeader (flip h i) = .type7 := ofHeader_eq_type7.mpr
      ⟨(tag_flip_of_lt hi).trans htag, (opcodeParityOk_flip_iff hparity hi).mpr hr⟩
    cases hunknown.symm.trans hkind
  · intro hnot
    refine ofHeader_flip_eq_unknown (.inr htag)
      (fun h4 => absurd (h4.symm.trans htag) type4Tag_ne_type7Tag) fun _ hi hp => hnot ⟨hi, ?_⟩
    exact (opcodeParityOk_flip_iff hparity hi).mp hp

/-! ## Fields that fit -/

theorem and_mask_eq {w : UInt32} {n : Nat} (mask : UInt32) (hmask : mask.toNat = 2 ^ n - 1)
    (hw : w.toNat < 2 ^ n) : w &&& mask = w := by
  rw [← UInt32.toNat_inj, UInt32.toNat_and, hmask, Nat.and_two_pow_sub_one_eq_mod,
    Nat.mod_eq_of_lt hw]

/-- A header made of fields that fit starts a packet of its kind, which has these fields and takes
up a word for the header and one for each value. Any wrong bit makes it start no packet, but for the
reserved bits of an opcode packet. The parity bit of a word is 1 if the number of ones in the word
is even, and 0 otherwise, also if it is looked up in a table. -/
theorem ofHeader_detects :
    (∀ offset count : UInt32, offset.toNat < 2 ^ 19 → count.toNat < 2 ^ 7 →
      let h := ofRegisters offset count
      ofHeader h = .type4 ∧ registerOffset h = offset ∧ registerCount h = count ∧
        (ofHeader h).length h = 1 + count.toNat ∧
        ∀ i : Fin 32, ofHeader (flip h i) = .unknown) ∧
    (∀ (op : UInt8) (count : UInt32), op.toNat < 2 ^ 7 → count.toNat < 2 ^ 14 →
      let h := ofOpcode op count
      ofHeader h = .type7 ∧ opcode h = op ∧ payloadCount h = count ∧
        (ofHeader h).length h = 1 + count.toNat ∧
        ∀ i : Fin 32, ofHeader (flip h i) = .unknown ↔ i ≠ 14 ∧ ¬(24 ≤ i ∧ i ≤ 27)) ∧
    ∀ v : UInt32, oddParity v = (if Even v.toBitVec.cpop.toNat then 1 else 0) ∧
      tableParity v = oddParity v := by
  refine ⟨fun offset count hoffset hcount => ?_, fun op count hop hcount => ?_,
    fun v => ⟨oddParity_eq v, tableParity_eq v⟩⟩
  · have hk : ofHeader (ofRegisters offset count) = .type4 := ofHeader_ofRegisters
    have hfield : registerCount (ofRegisters offset count) = count :=
      registerCount_ofRegisters.trans (and_mask_eq 0x7f rfl hcount)
    refine ⟨hk, registerOffset_ofRegisters.trans (and_mask_eq 0x7ffff rfl hoffset), hfield, ?_,
      ofHeader_flip_of_type4 hk⟩
    rw [hk, length, hfield]
  · have hk : ofHeader (ofOpcode op count) = .type7 := ofHeader_ofOpcode
    have hfield : payloadCount (ofOpcode op count) = count :=
      payloadCount_ofOpcode.trans (and_mask_eq 0x3fff rfl hcount)
    refine ⟨hk, opcode_ofOpcode.trans ?_, hfield, ?_, ofHeader_flip_of_type7 hk⟩
    · rw [← UInt8.toNat_inj, UInt8.toNat_and]
      exact (Nat.and_two_pow_sub_one_eq_mod op.toNat 7).trans (Nat.mod_eq_of_lt hop)
    · rw [hk, length, hfield]

/-- A write of three registers and a draw with seven payload words. A wrong parity bit of the offset
or a wrong bit of the tag leaves no packet, a wrong reserved bit leaves the draw one. -/
theorem ofHeader_detects_draw :
    ((0x8871 : UInt32).toNat < 2 ^ 19 ∧ (3 : UInt32).toNat < 2 ^ 7 ∧
      ofHeader (ofRegisters 0x8871 3) = .type4 ∧
      ofHeader (flip (ofRegisters 0x8871 3) 27) = .unknown) ∧
    (Opcode.drawIndexOffset.toNat < 2 ^ 7 ∧ (7 : UInt32).toNat < 2 ^ 14 ∧
      let draw := ofOpcode Opcode.drawIndexOffset 7
      (ofHeader draw).length draw = 8 ∧ ofHeader (flip draw 30) = .unknown ∧
      ofHeader (flip draw 25) ≠ .unknown) ∧
    oddParity 0x8871 = 1 ∧ oddParity 0x8870 = 0 := by
  have hregisters := ofHeader_detects.1 0x8871 3 (by decide) (by decide)
  have hdraw := ofHeader_detects.2.1 Opcode.drawIndexOffset 7 (by decide) (by decide)
  obtain ⟨hk, -, -, -, hflip⟩ := hregisters
  obtain ⟨-, -, -, hlength, hflip'⟩ := hdraw
  refine ⟨⟨by decide, by decide, hk, hflip 27⟩, ⟨by decide, by decide, hlength, ?_, ?_⟩, ?_, ?_⟩
  · exact (hflip' 30).mpr (by decide)
  · exact fun hunknown => ((hflip' 25).mp hunknown).2 (by decide)
  · exact (ofHeader_detects.2.2 0x8871).1.trans (by decide)
  · exact (ofHeader_detects.2.2 0x8870).1.trans (by decide)

end PacketKind

end CaptureForest
