import CaptureForest.Packet.Fields
import CaptureForest.Proofs.Packet.Header

/-! # Fields and the words they lie in

The lines below an opcode packet are those of the fields in `Layouts.listed`, then those of the
words in `Layouts.rawWords`. If the fields of a layout ascend, a word with a field is listed by its
fields alone, and a word behind all fields in the packet is listed raw. A word without a field that
has one behind it is not listed at all (`Layouts.listed_or_raw`). -/

namespace CaptureForest

/-! ## Values -/

namespace BitField

/-- The bits of a word that the value of the field tells. -/
def kept (f : BitField) : UInt32 := f.mask >>> f.shift <<< f.shift

variable {f : BitField} {w w' : UInt32}

/-- A value shifted back gives the bits that it tells. -/
theorem value_shiftLeft : f.value w <<< f.shift = w &&& f.kept := by
  refine Header.eq_of_bits fun i hi => ?_
  simp only [value, kept, UInt32.toBitVec_shiftLeft, UInt32.toBitVec_shiftRight,
    UInt32.toBitVec_and, BitVec.shiftLeft_eq', BitVec.ushiftRight_eq', BitVec.getLsbD_shiftLeft,
    BitVec.getLsbD_ushiftRight, BitVec.getLsbD_and]
  by_cases hlt : i < (f.shift.toBitVec % 32).toNat
  · simp only [hlt, decide_true, Bool.not_true, Bool.and_false, Bool.false_and]
  · rw [Nat.add_sub_cancel' (Nat.le_of_not_lt hlt)]
    simp only [hi, hlt, decide_true, decide_false, Bool.not_false, Bool.true_and]

/-- Equal values tell equal bits. -/
theorem and_kept_of_value_eq (h : f.value w = f.value w') : w &&& f.kept = w' &&& f.kept := by
  rw [← value_shiftLeft, h, value_shiftLeft]

end BitField

namespace Layouts

variable {l : Layouts} {op : UInt8} {size d : Nat} {words : Array UInt32} {f : PacketField}

/-! ## Lines -/

/-- The fields of an `op` packet. -/
def fieldsOf (l : Layouts) (op : UInt8) : List PacketField :=
  ((l.packet? op).map (·.fields)).getD []

/-- The fields that are listed below an `op` packet of `size` words. -/
def listed (l : Layouts) (op : UInt8) (size : Nat) : List PacketField :=
  (l.fieldsOf op).takeWhile (·.word < size)

/-- The words that are listed raw below an `op` packet of `size` words. -/
def rawWords (l : Layouts) (op : UInt8) (size : Nat) : List Nat :=
  if (l.packet? op).any (·.fields.isEmpty) then []
  else
    let last := ((l.listed op size).getLast?.map (·.word)).getD 0
    List.range' (last + 1) (size - (last + 1))

theorem present_eq (words : Array UInt32) (fields : List PacketField) :
    PacketField.present words fields =
      (fields.takeWhile (·.word < words.size)).map fun f => (f, words.getD f.word 0) := by
  induction fields with
  | nil => rfl
  | cons f fs ih =>
    rw [PacketField.present, List.takeWhile_cons]
    by_cases hlt : f.word < words.size
    · simp [hlt, ih]
    · simp [hlt]

theorem rawLines_eq (words : Array UInt32) (first : Nat) : rawLines words first =
    (List.range' first (words.size - first)).map fun d => rawText d (words.getD d 0) := by
  refine List.ext_getElem? fun i => ?_
  rcases Nat.lt_or_ge (first + i) words.size with hlt | hge
  · have hi : i < words.size - first := by omega
    simp [rawLines, hlt, hi]
  · have hi : words.size - first ≤ i := by omega
    simp [rawLines, hi]

/-- Fields are listed first, then raw words. -/
theorem fieldLines_eq (l : Layouts) (op : UInt8) (words : Array UInt32) :
    l.fieldLines op words =
      (l.listed op words.size).map (fun f => f.text l (f.value (words.getD f.word 0))) ++
        (l.rawWords op words.size).map fun d => rawText d (words.getD d 0) := by
  unfold fieldLines listed rawWords fieldsOf
  cases hlayout : l.packet? op with
  | none => simp [rawLines_eq, listed, fieldsOf, hlayout]
  | some layout =>
    obtain ⟨name, fields⟩ := layout
    cases fields with
    | nil => simp
    | cons f fs =>
      simp [present_eq, rawLines_eq, listed, fieldsOf, hlayout, Function.comp_def]

/-! ## Words -/

/-- The fields ascend in the words that they lie in. -/
def Ascending (fields : List PacketField) : Prop := fields.Pairwise (·.word ≤ ·.word)

instance {fields : List PacketField} : Decidable (Ascending fields) :=
  inferInstanceAs (Decidable (List.Pairwise ..))

/-- All fields of ascending ones that lie within the packet are listed. -/
theorem mem_listed (h : Ascending (l.fieldsOf op)) :
    f ∈ l.listed op size ↔ f ∈ l.fieldsOf op ∧ f.word < size := by
  unfold listed Ascending at *
  generalize l.fieldsOf op = fields at h ⊢
  induction fields with
  | nil => simp
  | cons g gs ih =>
    obtain ⟨hle, hgs⟩ := List.pairwise_cons.mp h
    rw [List.takeWhile_cons]
    by_cases hlt : g.word < size
    · simp only [hlt, decide_true, if_true, List.mem_cons, ih hgs]
      exact ⟨fun hf => hf.elim (fun heq => ⟨.inl heq, heq ▸ hlt⟩) fun ⟨hf, hw⟩ => ⟨.inr hf, hw⟩,
        fun ⟨hf, hw⟩ => hf.imp_right (⟨·, hw⟩)⟩
    · simp only [hlt, decide_false, Bool.false_eq_true, if_false, List.not_mem_nil, false_iff]
      rintro ⟨hf, hw⟩
      rcases List.mem_cons.mp hf with rfl | hf
      · exact hlt hw
      · exact hlt (Nat.lt_of_le_of_lt (hle f hf) hw)

/-- The last word with a field is the greatest one. -/
theorem lastWord_lt_iff {fields : List PacketField} (h : Ascending fields) :
    (fields.getLast?.map (·.word)).getD 0 < d ↔ 0 < d ∧ ∀ f ∈ fields, f.word < d := by
  rcases List.eq_nil_or_concat fields with rfl | ⟨fs, f, rfl⟩
  · simp
  · rw [List.concat_eq_append] at h ⊢
    have hle := (List.pairwise_append.mp h).2.2
    simp only [List.getLast?_concat, Option.map_some, Option.getD_some, List.mem_append,
      List.mem_singleton]
    constructor
    · refine fun hlt => ⟨Nat.zero_lt_of_lt hlt, fun g hg => ?_⟩
      rcases hg with hg | rfl
      · exact Nat.lt_of_le_of_lt (hle g hg f (List.mem_singleton_self f)) hlt
      · exact hlt
    · exact fun ⟨_, hall⟩ => hall f (.inr rfl)

/-- The words behind all fields that lie within the packet are listed raw. -/
theorem mem_rawWords (h : Ascending (l.fieldsOf op))
    (hne : ∀ layout, l.packet? op = some layout → layout.fields ≠ []) :
    d ∈ l.rawWords op size ↔
      0 < d ∧ d < size ∧ ∀ f ∈ l.fieldsOf op, f.word < size → f.word < d := by
  have hany : ¬(l.packet? op).any (·.fields.isEmpty) := by
    cases hlayout : l.packet? op with
    | none => simp
    | some layout => simpa using hne layout hlayout
  have hlisted : Ascending (l.listed op size) := h.sublist (List.takeWhile_sublist _)
  have hlast := lastWord_lt_iff (d := d) hlisted
  simp only [mem_listed h, and_imp] at hlast
  rw [rawWords, if_neg hany, List.mem_range'_1]
  constructor
  · rintro ⟨hle, hlt⟩
    obtain ⟨hpos, hall⟩ := hlast.mp hle
    exact ⟨hpos, by omega, hall⟩
  · rintro ⟨hpos, hlt, hall⟩
    have hle := hlast.mpr ⟨hpos, hall⟩
    exact ⟨hle, by omega⟩

/-- The word has no field, but a later word of the packet has one. -/
def Skips (l : Layouts) (op : UInt8) (size d : Nat) : Prop :=
  (∀ f ∈ l.fieldsOf op, f.word ≠ d) ∧ ∃ f ∈ l.fieldsOf op, d < f.word ∧ f.word < size

/-- A word of a packet is listed by its fields or raw, unless it is skipped, and never both ways. -/
theorem listed_or_raw (h : Ascending (l.fieldsOf op))
    (hne : ∀ layout, l.packet? op = some layout → layout.fields ≠ []) (hpos : 0 < d)
    (hlt : d < size) :
    ((∃ f ∈ l.listed op size, f.word = d) ∨ d ∈ l.rawWords op size ↔ ¬l.Skips op size d) ∧
      ¬((∃ f ∈ l.listed op size, f.word = d) ∧ d ∈ l.rawWords op size) := by
  simp only [mem_listed h, mem_rawWords h hne]
  constructor
  · constructor
    · rintro (⟨f, ⟨hf, -⟩, hword⟩ | ⟨-, -, hraw⟩) ⟨hnone, g, hg, hgt, hin⟩
      · exact hnone f hf hword
      · exact Nat.lt_asymm hgt (hraw g hg hin)
    · refine fun hskips => or_iff_not_imp_left.mpr fun hnone => ⟨hpos, hlt, fun f hf hin => ?_⟩
      have hnone (g : PacketField) (hg : g ∈ l.fieldsOf op) : g.word ≠ d := fun hword =>
        hnone ⟨g, ⟨hg, hword ▸ hlt⟩, hword⟩
      rcases Nat.lt_trichotomy f.word d with hf' | hf' | hf'
      · exact hf'
      · exact absurd hf' (hnone f hf)
      · exact absurd ⟨hnone, f, hf, hf', hin⟩ hskips
  · rintro ⟨⟨f, ⟨hf, hin⟩, rfl⟩, -, -, hraw⟩
    exact Nat.lt_irrefl _ (hraw f hf hin)

end Layouts

end CaptureForest
