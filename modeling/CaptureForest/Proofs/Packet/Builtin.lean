import CaptureForest.Packet.Builtin
import CaptureForest.Proofs.Packet.Fields

/-! # What the lines of a packet tell

The lines of a packet tell the values of its fields, and a value tells the bits of the field that
its shift does not drop (`BitField.kept`). In the built-in layouts these are all bits of all fields
but one (`Layouts.builtin_tells`). -/

namespace CaptureForest

/-! ## Numbers -/

theorem digitChar_inj : ∀ a < 16, ∀ b < 16, Nat.digitChar a = Nat.digitChar b → a = b := by
  decide

theorem toDigits_inj {m n : Nat} (h : Nat.toDigits 16 m = Nat.toDigits 16 n) : m = n := by
  induction m using Nat.strongRecOn generalizing n with
  | ind m ih =>
    rw [Nat.toDigits_eq_if (by decide), Nat.toDigits_eq_if (n := n) (by decide)] at h
    split at h <;> split at h
    · rename_i hm hn
      exact digitChar_inj m hm n hn (List.cons.inj h).1
    · rw [← List.nil_append [Nat.digitChar m]] at h
      exact absurd (List.append_inj' h rfl).1.symm Nat.toDigits_ne_nil
    · rw [← List.nil_append [Nat.digitChar n]] at h
      exact absurd (List.append_inj' h rfl).1 Nat.toDigits_ne_nil
    · obtain ⟨hquot, hrem⟩ := List.append_inj' h rfl
      have hdiv := ih (m / 16) (by omega) hquot
      have hmod := digitChar_inj _ (Nat.mod_lt _ (by decide)) _ (Nat.mod_lt _ (by decide))
        (List.cons.inj hrem).1
      omega

theorem hex0x_inj {v w : UInt32} (h : hex0x v.toNat = hex0x w.toNat) : v = w :=
  UInt32.toNat_inj.mp (toDigits_inj (String.ofList_injective (String.append_right_inj _ |>.mp h)))

theorem labelled_inj {name : String} {v w : UInt32} (h : labelled name v = labelled name w) :
    v = w :=
  hex0x_inj (String.append_right_inj _ |>.mp h)

/-! ## Texts -/

namespace Layouts

variable {l : Layouts} {op : UInt8} {words words' : Array UInt32} {f : PacketField} {v w : UInt32}

/-- The named values of an enumeration have names of their own, which do not look like numbers. -/
structure Legible (l : Layouts) : Prop where
  unique : ∀ {e v w name}, l.enumText? e v = some name → l.enumText? e w = some name → v = w
  name : ∀ {e v name}, l.enumText? e v = some name → name.toList.head? ≠ some '0'

theorem head?_hex0x {n : Nat} : (hex0x n).toList.head? = some '0' := by
  simp [hex0x]

theorem text_eq : f.text l v = f.name ++ ": " ++
    (f.enumeration.bind fun e => l.enumText? e v).getD (hex0x v.toNat) := by
  unfold PacketField.text labelled
  split
  · rename_i name hname
    rw [hname, Option.getD_some]
  · rename_i hnone
    rw [hnone, Option.getD_none]

theorem Legible.text_inj (hl : l.Legible) (h : f.text l v = f.text l w) : v = w := by
  rw [text_eq, text_eq] at h
  replace h := String.append_right_inj _ |>.mp h
  cases he : f.enumeration with
  | none =>
    rw [he] at h
    exact hex0x_inj h
  | some e =>
    rw [he, Option.bind_some, Option.bind_some] at h
    cases hv : l.enumText? e v with
    | none =>
      cases hw : l.enumText? e w with
      | none =>
        rw [hv, hw] at h
        exact hex0x_inj h
      | some name =>
        rw [hv, hw, Option.getD_none, Option.getD_some] at h
        exact absurd (h ▸ head?_hex0x) (hl.name hw)
    | some name =>
      cases hw : l.enumText? e w with
      | none =>
        rw [hv, hw, Option.getD_none, Option.getD_some] at h
        exact absurd (h ▸ head?_hex0x) (hl.name hv)
      | some name' =>
        rw [hv, hw] at h
        exact hl.unique hv (hw.trans (congrArg some h.symm))

/-! ## Lines -/

/-- The lines of raw words begin with a parenthesis. -/
def isRaw (line : String) : Bool := line.toList.head? = some '('

theorem isRaw_rawText {d : Nat} : isRaw (rawText d v) := by
  simp [isRaw, rawText]

theorem not_isRaw_text (hf : !isRaw f.name) : !isRaw (f.text l v) := by
  have happend {s : String} (h : f.name.toList.head? ≠ some '(') :
      ((f.name ++ ": " ++ s).toList).head? ≠ some '(' := by
    cases hname : f.name.toList with
    | nil => simp [hname]
    | cons a as => simpa [hname] using h
  simp only [isRaw, Bool.not_eq_true', decide_eq_false_iff_not] at hf ⊢
  rw [text_eq]
  exact happend hf

/-- The lines of a packet tell which fields are listed, and their values. -/
theorem Legible.lines_tell (hl : l.Legible) (hnames : ∀ f ∈ l.fieldsOf op, !isRaw f.name)
    (h : l.fieldLines op words = l.fieldLines op words') :
    l.listed op words.size = l.listed op words'.size ∧
      ∀ f ∈ l.listed op words.size,
        f.value (words.getD f.word 0) = f.value (words'.getD f.word 0) := by
  have hshown (ws : Array UInt32) : (l.fieldLines op ws).takeWhile (!isRaw ·) =
      (l.listed op ws.size).map fun f => f.text l (f.value (ws.getD f.word 0)) := by
    have hraw : ((l.rawWords op ws.size).map fun d => rawText d (ws.getD d 0)).takeWhile
        (!isRaw ·) = [] := by
      cases l.rawWords op ws.size with
      | nil => rfl
      | cons d ds => exact List.takeWhile_cons_of_neg (by simp [isRaw_rawText])
    rw [fieldLines_eq, List.takeWhile_append_of_pos, hraw, List.append_nil]
    intro line hline
    obtain ⟨f, hf, rfl⟩ := List.mem_map.mp hline
    exact not_isRaw_text (hnames f ((List.takeWhile_sublist _).subset hf))
  have heq := (hshown words).symm.trans ((congrArg _ h).trans (hshown words'))
  have hlisted : l.listed op words.size = l.listed op words'.size := by
    have hlength := congrArg List.length heq
    rw [List.length_map, List.length_map] at hlength
    have htake (size : Nat) : l.listed op size = (l.fieldsOf op).take (l.listed op size).length :=
      List.prefix_iff_eq_take.mp (List.takeWhile_prefix _)
    rw [htake words.size, htake words'.size, hlength]
  rw [← hlisted] at heq
  exact ⟨hlisted, fun f hf => hl.text_inj (List.map_inj_left.mp heq f hf)⟩

/-! ## Built-in layouts -/

namespace Builtin

/-- The bits of a built-in field that its value does not tell. The lowest bit of the local size in x
is shifted out with the bit below the field. -/
def dropped (f : BitField) : UInt32 := if f.name = "LOCALSIZEX" then 0x2 else 0

theorem packet_fields : ∀ e ∈ packets, (∀ f ∈ e.2.fields, f.shift < 32 ∧ !isRaw f.name ∧
      dropped f.toBitField &&& f.mask = dropped f.toBitField ∧
      f.kept = f.mask &&& ~~~dropped f.toBitField) ∧
    Ascending e.2.fields ∧
    e.2.fields.Pairwise fun f g => f.word = g.word → f.mask &&& g.mask = 0 := by
  decide

theorem register_fields : ∀ e ∈ registers, (∀ f ∈ e.2.fields, f.shift < 32 ∧ f.kept = f.mask) ∧
    e.2.fields.Pairwise fun f g => f.mask &&& g.mask = 0 := by
  decide

theorem enumerations_unique : ∀ a ∈ enumerations, ∀ b ∈ enumerations,
    a.1.1 = b.1.1 → a.2 = b.2 → a.1.2 = b.1.2 := by
  decide

theorem enumerations_named : ∀ e ∈ enumerations, e.2.toList.head? ≠ some '0' := by
  decide

end Builtin

theorem mem_of_lookup {α β : Type} [BEq α] [LawfulBEq α] {list : List (α × β)} {a : α} {b : β}
    (h : list.lookup a = some b) : (a, b) ∈ list := by
  obtain ⟨before, after, rfl, -⟩ := List.lookup_eq_some_iff.mp h
  simp

theorem builtin_legible : builtin.Legible where
  unique hv hw :=
    Builtin.enumerations_unique _ (mem_of_lookup hv) _ (mem_of_lookup hw) rfl rfl
  name hv := Builtin.enumerations_named _ (mem_of_lookup hv)

/-- Nothing is lost with bits that are not set. -/
theorem and_and_not_eq_iff {m d : UInt32} (hd : d &&& m = d) :
    w &&& (m &&& ~~~d) = w &&& m ↔ w &&& d = 0 := by
  have hsplit : w &&& m = w &&& (m &&& ~~~d) ||| w &&& d := by
    refine Header.eq_of_bits fun i hi => ?_
    have hbit := congrArg (fun u : UInt32 => u.toBitVec.getLsbD i) hd
    simp only [UInt32.toBitVec_and, UInt32.toBitVec_or, UInt32.toBitVec_not, BitVec.getLsbD_and,
      BitVec.getLsbD_or, BitVec.getLsbD_not, hi, decide_true, Bool.true_and] at hbit ⊢
    revert hbit
    cases w.toBitVec.getLsbD i <;> cases m.toBitVec.getLsbD i <;> cases d.toBitVec.getLsbD i <;>
      decide
  have happart : (w &&& (m &&& ~~~d)) &&& d = 0 := by
    rw [UInt32.and_assoc, UInt32.and_assoc, UInt32.and_comm (~~~d), UInt32.and_not_self,
      UInt32.and_zero, UInt32.and_zero]
  constructor
  · intro h
    rw [← hd, UInt32.and_comm d, ← UInt32.and_assoc, ← h, happart]
  · intro h
    rw [hsplit, h, UInt32.or_zero]

/-- A value of a built-in field shifted back gives the bits of the field but for those that are
dropped, and so all of them exactly if none of these is set. No two fields share a bit. So the lines
of a packet tell all bits of its fields that are not dropped, and the lines of a register all bits
of its fields. -/
theorem builtin_tells (op : UInt8) (reg : Nat) :
    (∀ layout, builtin.packet? op = some layout →
      (∀ f ∈ layout.fields, f.shift < 32 ∧ ∀ w,
        f.value w <<< f.shift = w &&& (f.mask &&& ~~~Builtin.dropped f.toBitField) ∧
        (f.value w <<< f.shift = w &&& f.mask ↔ w &&& Builtin.dropped f.toBitField = 0)) ∧
      layout.fields.Pairwise (fun f g => f.word = g.word → f.mask &&& g.mask = 0) ∧
      ∀ words words', builtin.fieldLines op words = builtin.fieldLines op words' →
        ∀ f ∈ layout.fields,
          words[f.word]?.map (· &&& (f.mask &&& ~~~Builtin.dropped f.toBitField)) =
            words'[f.word]?.map (· &&& (f.mask &&& ~~~Builtin.dropped f.toBitField))) ∧
    ∀ layout, builtin.register? reg = some layout →
      (∀ f ∈ layout.fields, f.shift < 32 ∧ ∀ w, f.value w <<< f.shift = w &&& f.mask) ∧
      layout.fields.Pairwise (fun f g => f.mask &&& g.mask = 0) ∧
      ∀ v w, (builtin.registerLines reg v).2 = (builtin.registerLines reg w).2 →
        ∀ f ∈ layout.fields, v &&& f.mask = w &&& f.mask := by
  refine ⟨fun layout hlayout => ?_, fun layout hlayout => ?_⟩
  · obtain ⟨hfields, hascending, hapart⟩ := Builtin.packet_fields _ (mem_of_lookup hlayout)
    have hof : builtin.fieldsOf op = layout.fields := by rw [fieldsOf, hlayout]; rfl
    refine ⟨fun f hf => ?_, hapart, fun words words' h f hf => ?_⟩
    · obtain ⟨hshift, -, hdropped, hkept⟩ := hfields f hf
      refine ⟨hshift, fun w => ?_⟩
      rw [BitField.value_shiftLeft, hkept]
      exact ⟨rfl, and_and_not_eq_iff hdropped⟩
    · obtain ⟨-, -, -, hkept⟩ := hfields f hf
      obtain ⟨hlisted, hvalue⟩ :=
        builtin_legible.lines_tell (fun f hf => (hfields f (hof ▸ hf)).2.1) h
      rw [← hof] at hf hascending
      have hsize : f.word < words.size ↔ f.word < words'.size := by
        have hiff : f ∈ builtin.listed op words.size ↔ f ∈ builtin.listed op words'.size := by
          rw [hlisted]
        rwa [mem_listed hascending, mem_listed hascending, and_congr_right_iff,
          imp_iff_right hf] at hiff
      rw [← hkept]
      by_cases hlt : f.word < words.size
      · have hlt' := hsize.mp hlt
        have htell := hvalue f ((mem_listed hascending).mpr ⟨hf, hlt⟩)
        simpa [hlt, hlt'] using BitField.and_kept_of_value_eq htell
      · have hlt' := mt hsize.mpr hlt
        simp [hlt, hlt']
  · obtain ⟨hfields, hapart⟩ := Builtin.register_fields _ (mem_of_lookup hlayout)
    refine ⟨fun f hf => ?_, hapart, fun v w h f hf => ?_⟩
    · obtain ⟨hshift, hkept⟩ := hfields f hf
      exact ⟨hshift, fun w => hkept ▸ BitField.value_shiftLeft⟩
    · obtain ⟨-, hkept⟩ := hfields f hf
      rw [registerLines, registerLines, hlayout] at h
      have htell := labelled_inj (List.map_inj_left.mp h f hf)
      rw [← hkept]
      exact BitField.and_kept_of_value_eq htell

/-- The lines of a dispatch with its local size in memory tell the size in y. -/
theorem builtin_tells_localSize : ∃ layout, builtin.packet? Opcode.dispatchIndirect = some layout ∧
    ∃ f ∈ layout.fields, f.name = "LOCALSIZEY" ∧ ∀ words words',
      builtin.fieldLines Opcode.dispatchIndirect words =
        builtin.fieldLines Opcode.dispatchIndirect words' →
      words[4]?.map (· &&& 0x1ff800) = words'[4]?.map (· &&& 0x1ff800) := by
  refine ⟨_, rfl, Builtin.bits "LOCALSIZEY" 4 0x1ff800 11, by decide, rfl, fun words words' h => ?_⟩
  exact ((builtin_tells Opcode.dispatchIndirect 0).1 _ rfl).2.2 words words' h
    (Builtin.bits "LOCALSIZEY" 4 0x1ff800 11) (by decide)

/-- The local size in x is shifted too far: packets that differ in its lowest bit have the same
lines. -/
theorem builtin_drops_localSize :
    (¬∀ op layout, builtin.packet? op = some layout → ∀ f ∈ layout.fields, ∀ w,
      f.value w <<< f.shift = w &&& f.mask) ∧
    let words (w : UInt32) := #[Header.ofOpcode Opcode.dispatchIndirect 4, 0, 0, 0, w]
    builtin.fieldLines Opcode.dispatchIndirect (words 2) =
      builtin.fieldLines Opcode.dispatchIndirect (words 0) := by
  refine ⟨fun h => ?_, by decide⟩
  have hvalue := h Opcode.dispatchIndirect _ rfl (Builtin.bits "LOCALSIZEX" 4 0x7fe 2) (by decide) 2
  exact absurd hvalue (by decide)

end Layouts

end CaptureForest
