import CaptureForest.Packet.Header
import CaptureForest.Packet.Opcode
import Mathlib.Tactic.IntervalCases

/-! # Headers and their fields

The header that is made of two fields has these fields and the right parity bits, so it starts a
packet of its kind. The other way round, a word that starts a register write is the header made of
its fields. A word that starts an opcode packet is so up to `Header.reservedBits`: they are zero in
every header that is made, and no matter in a word that is read (`PacketKind.ofHeader_classifies`). -/

namespace CaptureForest

namespace Header

variable {h offset count v : UInt32} {op : UInt8}

/-- The bits of an opcode header that belong to no field. -/
def reservedBits : UInt32 := 0x0f004000

/-! ## Bits -/

theorem eq_of_bits {a b : UInt32} (h : ∀ i < 32, a.toBitVec.getLsbD i = b.toBitVec.getLsbD i) :
    a = b :=
  UInt32.eq_of_toBitVec_eq (BitVec.eq_of_getLsbD_eq h)

/-- A parity is a single bit. -/
theorem oddParity_and_one : oddParity v &&& 1 = oddParity v := by
  unfold oddParity
  rw [UInt32.and_assoc, UInt32.and_self]

theorem oddParity_getElem {i : Nat} (hi : i < 32) (hne : i ≠ 0) :
    (oddParity v).toBitVec[i] = false := by
  rw [← oddParity_and_one]
  simp [hne]

/-! ## Register writes -/

theorem tag_ofRegisters : tag (ofRegisters offset count) = type4Tag := by
  refine eq_of_bits fun i hi => ?_
  interval_cases i <;> simp [tag, ofRegisters, type4Tag, oddParity_getElem]

theorem registerCount_ofRegisters : registerCount (ofRegisters offset count) = count &&& 0x7f := by
  refine eq_of_bits fun i hi => ?_
  interval_cases i <;> simp [registerCount, ofRegisters, type4Tag]

theorem registerOffset_ofRegisters :
    registerOffset (ofRegisters offset count) = offset &&& 0x7ffff := by
  refine eq_of_bits fun i hi => ?_
  interval_cases i <;> simp [registerOffset, ofRegisters, type4Tag, oddParity_getElem]

theorem registerParityOk_ofRegisters : registerParityOk (ofRegisters offset count) := by
  have hcount : ofRegisters offset count >>> 7 &&& 1 = oddParity (count &&& 0x7f) := by
    refine eq_of_bits fun i hi => ?_
    interval_cases i <;> simp [ofRegisters, type4Tag, oddParity_getElem]
  have hoffset : ofRegisters offset count >>> 27 &&& 1 = oddParity (offset &&& 0x7ffff) := by
    refine eq_of_bits fun i hi => ?_
    interval_cases i <;> simp [ofRegisters, type4Tag, oddParity_getElem]
  simp [registerParityOk, registerCount_ofRegisters, registerOffset_ofRegisters, hcount, hoffset]

/-- The fields of a register write make up its header. -/
theorem ofRegisters_fields (htag : tag h = type4Tag) (hparity : registerParityOk h) :
    ofRegisters (registerOffset h) (registerCount h) = h := by
  obtain ⟨hcount, hoffset⟩ : h >>> 7 &&& 1 = oddParity (registerCount h) ∧
      h >>> 27 &&& 1 = oddParity (registerOffset h) := by
    simpa [registerParityOk] using hparity
  have hcount' : registerCount h &&& 0x7f = registerCount h := by
    rw [registerCount, UInt32.and_assoc, UInt32.and_self]
  have hoffset' : registerOffset h &&& 0x7ffff = registerOffset h := by
    rw [registerOffset, UInt32.and_assoc, UInt32.and_self]
  rw [ofRegisters, hcount', hoffset', ← hcount, ← hoffset, ← htag]
  refine eq_of_bits fun i hi => ?_
  interval_cases i <;> simp [tag, registerCount, registerOffset]

/-! ## Opcode packets -/

theorem tag_ofOpcode : tag (ofOpcode op count) = type7Tag := by
  refine eq_of_bits fun i hi => ?_
  interval_cases i <;> simp [tag, ofOpcode, type7Tag, oddParity_getElem]

theorem payloadCount_ofOpcode : payloadCount (ofOpcode op count) = count &&& 0x3fff := by
  refine eq_of_bits fun i hi => ?_
  interval_cases i <;> simp [payloadCount, ofOpcode, type7Tag]

theorem opcode_ofOpcode : opcode (ofOpcode op count) = op &&& 0x7f := by
  refine UInt8.eq_of_toBitVec_eq (BitVec.eq_of_getLsbD_eq fun i hi => ?_)
  interval_cases i <;> simp [opcode, ofOpcode, type7Tag, oddParity_getElem]

theorem opcodeParityOk_ofOpcode : opcodeParityOk (ofOpcode op count) := by
  have hcount : ofOpcode op count >>> 15 &&& 1 = oddParity (count &&& 0x3fff) := by
    refine eq_of_bits fun i hi => ?_
    interval_cases i <;> simp [ofOpcode, type7Tag, oddParity_getElem]
  have hop : ofOpcode op count >>> 23 &&& 1 = oddParity (op &&& 0x7f).toUInt32 := by
    refine eq_of_bits fun i hi => ?_
    interval_cases i <;> simp [ofOpcode, type7Tag, oddParity_getElem]
  simp [opcodeParityOk, payloadCount_ofOpcode, opcode_ofOpcode, hcount, hop]

theorem ofOpcode_and_reservedBits : ofOpcode op count &&& reservedBits = 0 := by
  refine eq_of_bits fun i hi => ?_
  interval_cases i <;> simp [ofOpcode, type7Tag, reservedBits, oddParity_getElem]

/-- The fields of an opcode packet make up its header but for the reserved bits. -/
theorem ofOpcode_fields (htag : tag h = type7Tag) (hparity : opcodeParityOk h) :
    ofOpcode (opcode h) (payloadCount h) = h &&& ~~~reservedBits := by
  obtain ⟨hcount, hop⟩ : h >>> 15 &&& 1 = oddParity (payloadCount h) ∧
      h >>> 23 &&& 1 = oddParity (opcode h).toUInt32 := by
    simpa [opcodeParityOk] using hparity
  have hcount' : payloadCount h &&& 0x3fff = payloadCount h := by
    rw [payloadCount, UInt32.and_assoc, UInt32.and_self]
  have hop' : opcode h &&& 0x7f = opcode h := by
    refine UInt8.eq_of_toBitVec_eq (BitVec.eq_of_getLsbD_eq fun i hi => ?_)
    interval_cases i <;> simp [opcode]
  rw [ofOpcode, hcount', hop', ← hcount, ← hop, ← htag]
  refine eq_of_bits fun i hi => ?_
  interval_cases i <;> simp [tag, payloadCount, opcode, reservedBits, -UInt32.toUInt32_toUInt8]

/-- A word whose reserved bits are zero is the same without them. -/
theorem and_not_reservedBits (hzero : h &&& reservedBits = 0) : h &&& ~~~reservedBits = h := by
  refine eq_of_bits fun i hi => ?_
  have hbit := congrArg (·.toBitVec.getLsbD i) hzero
  simpa [hi] using hbit

/-! ## Words without their reserved bits -/

theorem tag_without : tag (h &&& ~~~reservedBits) = tag h := by
  refine eq_of_bits fun i hi => ?_
  interval_cases i <;> simp [tag, reservedBits]

theorem opcodeParityOk_without : opcodeParityOk (h &&& ~~~reservedBits) = opcodeParityOk h := by
  have hcount : payloadCount (h &&& ~~~reservedBits) = payloadCount h := by
    refine eq_of_bits fun i hi => ?_
    interval_cases i <;> simp [payloadCount, reservedBits]
  have hop : opcode (h &&& ~~~reservedBits) = opcode h := by
    refine UInt8.eq_of_toBitVec_eq (BitVec.eq_of_getLsbD_eq fun i hi => ?_)
    interval_cases i <;> simp [opcode, reservedBits]
  have hlow : (h &&& ~~~reservedBits) >>> 15 &&& (1 : UInt32) = h >>> 15 &&& 1 := by
    refine eq_of_bits fun i hi => ?_
    interval_cases i <;> simp [reservedBits]
  have hhigh : (h &&& ~~~reservedBits) >>> 23 &&& (1 : UInt32) = h >>> 23 &&& 1 := by
    refine eq_of_bits fun i hi => ?_
    interval_cases i <;> simp [reservedBits]
  rw [opcodeParityOk, hcount, hop, hlow, hhigh, opcodeParityOk]

end Header

namespace PacketKind

open Header

variable {h offset count : UInt32} {op : UInt8}

/-! ## The kind of a header -/

theorem ofHeader_eq_type4 : ofHeader h = .type4 ↔ tag h = type4Tag ∧ registerParityOk h := by
  unfold ofHeader
  split
  · simp_all
  · split <;> simp_all

theorem ofHeader_eq_type7 : ofHeader h = .type7 ↔ tag h = type7Tag ∧ opcodeParityOk h := by
  have htags : type4Tag ≠ type7Tag := by decide
  unfold ofHeader
  split
  · simp_all
  · split <;> simp_all

theorem ofHeader_ofRegisters : ofHeader (ofRegisters offset count) = .type4 :=
  ofHeader_eq_type4.mpr ⟨tag_ofRegisters, registerParityOk_ofRegisters⟩

theorem ofHeader_ofOpcode : ofHeader (ofOpcode op count) = .type7 :=
  ofHeader_eq_type7.mpr ⟨tag_ofOpcode, opcodeParityOk_ofOpcode⟩

theorem eq_unknown {kind : PacketKind} : kind = .unknown ↔ kind ≠ .type4 ∧ kind ≠ .type7 := by
  cases kind <;> decide

theorem isRegisters_iff : ofHeader h = .type4 ↔ ∃ offset count, h = ofRegisters offset count := by
  refine ⟨fun hk => ?_, ?_⟩
  · obtain ⟨htag, hparity⟩ := ofHeader_eq_type4.mp hk
    exact ⟨_, _, (ofRegisters_fields htag hparity).symm⟩
  · rintro ⟨offset, count, rfl⟩
    exact ofHeader_ofRegisters

/-- The reserved bits are not looked at. -/
theorem isOpcode_iff :
    ofHeader h = .type7 ↔ ∃ op count, h &&& ~~~reservedBits = ofOpcode op count := by
  constructor
  · intro hk
    obtain ⟨htag, hparity⟩ := ofHeader_eq_type7.mp hk
    exact ⟨_, _, (ofOpcode_fields htag hparity).symm⟩
  · rintro ⟨op, count, heq⟩
    have hk : ofHeader (h &&& ~~~reservedBits) = .type7 := by rw [heq, ofHeader_ofOpcode]
    rwa [ofHeader_eq_type7, tag_without, opcodeParityOk_without, ← ofHeader_eq_type7] at hk

/-- A word starts a register write exactly if it is the header of one, and its fields then give it
back. It starts an opcode packet exactly if it is the header of one but for the reserved bits, and
its fields then give it back but for these; it is itself such a header exactly if they are zero. All
other words start no packet. -/
theorem ofHeader_classifies (h : UInt32) :
    (ofHeader h = .type4 ↔ ∃ offset count, h = ofRegisters offset count) ∧
    (ofHeader h = .type4 ↔ ofRegisters (registerOffset h) (registerCount h) = h) ∧
    (ofHeader h = .type7 ↔ ∃ op count, h &&& ~~~reservedBits = ofOpcode op count) ∧
    (ofHeader h = .type7 ↔ ofOpcode (opcode h) (payloadCount h) = h &&& ~~~reservedBits) ∧
    (ofHeader h = .type7 ∧ h &&& reservedBits = 0 ↔ ∃ op count, h = ofOpcode op count) ∧
    (ofHeader h = .unknown ↔ (∀ offset count, h ≠ ofRegisters offset count) ∧
      ∀ op count, h &&& ~~~reservedBits ≠ ofOpcode op count) := by
  refine ⟨isRegisters_iff, ⟨fun hk => ?_, fun heq => ?_⟩, isOpcode_iff,
    ⟨fun hk => ?_, fun heq => ?_⟩, ⟨fun ⟨hk, hzero⟩ => ?_, ?_⟩, ?_⟩
  · obtain ⟨htag, hparity⟩ := ofHeader_eq_type4.mp hk
    exact ofRegisters_fields htag hparity
  · exact isRegisters_iff.mpr ⟨_, _, heq.symm⟩
  · obtain ⟨htag, hparity⟩ := ofHeader_eq_type7.mp hk
    exact ofOpcode_fields htag hparity
  · exact isOpcode_iff.mpr ⟨_, _, heq.symm⟩
  · rw [isOpcode_iff, and_not_reservedBits hzero] at hk
    exact hk
  · rintro ⟨op, count, rfl⟩
    exact ⟨ofHeader_ofOpcode, ofOpcode_and_reservedBits⟩
  · rw [eq_unknown, Ne, Ne, isRegisters_iff, isOpcode_iff]
    simp only [not_exists]

/-- Bit 14 is reserved. The header of a no-operation packet with this bit set still starts a packet,
though no fields give such a header. -/
theorem ofHeader_reserved :
    let h := ofOpcode Opcode.nop 1 ||| 0x4000
    ofHeader h = .type7 ∧ (∀ op count, h ≠ ofOpcode op count) ∧
      ofOpcode (opcode h) (payloadCount h) ≠ h := by
  intro h
  have hne : ∀ op count, h ≠ ofOpcode op count := fun op count heq => by
    have hzero : h &&& reservedBits = 0 := heq ▸ ofOpcode_and_reservedBits
    exact absurd hzero (by decide)
  exact ⟨by decide, hne, (hne _ _).symm⟩

end PacketKind

end CaptureForest
