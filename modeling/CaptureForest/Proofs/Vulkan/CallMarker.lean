import CaptureForest.Memory.Reader
import CaptureForest.Vulkan.CallMarker
import Mathlib.Tactic.IntervalCases

/-! # Call markers in memory

The words of a packet are read from memory, and those of a call's arguments are put back into bytes.
`Words.toBytes` undoes `Words.ofBytes`, so the arguments are the bytes that lie in memory
(`CallMarker.ofPacket?_ofBytes`). `CallMarker.ListedAs` says under which text a call is listed. -/

namespace CaptureForest

/-! ## Commands -/

namespace Command

theorem ofId?_id (command : Command) : ofId? command.id = some command := by
  cases command <;> decide

theorem id_of_ofId? {id : UInt8} {command : Command} (h : ofId? id = some command) :
    command.id = id := by
  unfold ofId? at h
  have hid := List.find?_some h
  exact eq_of_beq hid

theorem ofId?_eq_some_iff {id : UInt8} {command : Command} :
    ofId? id = some command ↔ command.id = id :=
  ⟨id_of_ofId?, fun h => h ▸ ofId?_id command⟩

/-- The number of a command names that command and no other. -/
theorem ofId?_toUInt8 {id : Nat} {command : Command} :
    id < 256 ∧ ofId? id.toUInt8 = some command ↔ command.id.toNat = id := by
  constructor
  · rintro ⟨hlt, h⟩
    rw [id_of_ofId? h]
    exact UInt8.toNat_ofNat_of_lt hlt
  · rintro rfl
    refine ⟨UInt8.toNat_lt _, ?_⟩
    rw [show command.id.toNat.toUInt8 = command.id from UInt8.ofNat_toNat, ofId?_id]

end Command

/-! ## Bytes and words -/

theorem Word.toBytes_ofBytes (b₀ b₁ b₂ b₃ : UInt8) :
    toBytes (ofBytes b₀ b₁ b₂ b₃) = [b₀, b₁, b₂, b₃] := by
  have hbits (a b : UInt8) (h : ∀ i < 8, a.toBitVec.getLsbD i = b.toBitVec.getLsbD i) : a = b :=
    UInt8.toBitVec_inj.mp (BitVec.eq_of_getLsbD_eq h)
  simp only [toBytes, ofBytes, List.cons.injEq, and_true]
  refine ⟨hbits _ _ fun i hi => ?_, hbits _ _ fun i hi => ?_, hbits _ _ fun i hi => ?_,
    hbits _ _ fun i hi => ?_⟩ <;> interval_cases i <;> simp

namespace Words

variable {ws : Array UInt32} {bytes : Bytes} {i k : Nat}

theorem toList_toBytes : (toBytes ws).toList = ws.toList.flatMap Word.toBytes := by
  have hfoldl (l : List UInt32) (bytes : Bytes) :
      (l.foldl (fun (bytes : Bytes) w => bytes ++ Word.toBytes w) bytes).toList =
        bytes.toList ++ l.flatMap Word.toBytes := by
    induction l generalizing bytes with
    | nil => simp
    | cons w l ih => simp [ih]
  rw [toBytes, ← Array.foldl_toList, hfoldl]
  rfl

theorem size_toBytes : (toBytes ws).size = 4 * ws.size := by
  rw [← Array.length_toList, toList_toBytes, ← Array.length_toList]
  induction ws.toList with
  | nil => rfl
  | cons w l ih => rw [List.flatMap_cons, List.length_append, ih, List.length_cons, Nat.mul_succ,
      Nat.add_comm]; rfl

theorem getElem?_flatMap_toBytes {l : List UInt32} {j : Nat} (hj : j < 4) :
    (l.flatMap Word.toBytes)[4 * k + j]? = l[k]?.bind fun w => (Word.toBytes w)[j]? := by
  induction l generalizing k with
  | nil => rfl
  | cons w l ih =>
    have hlength : (Word.toBytes w).length = 4 := rfl
    rw [List.flatMap_cons]
    cases k with
    | zero =>
      rw [List.getElem?_append_left (by omega), Nat.mul_zero, Nat.zero_add]
      rfl
    | succ k =>
      rw [List.getElem?_append_right (by omega), hlength,
        show 4 * (k + 1) + j - 4 = 4 * k + j by omega, ih, List.getElem?_cons_succ]

/-- The bytes of words, one by one. -/
theorem getElem?_toBytes :
    (toBytes ws)[i]? = ws[i / 4]?.bind fun w => (Word.toBytes w)[i % 4]? := by
  rw [← Array.getElem?_toList, toList_toBytes, ← Array.getElem?_toList]
  exact (congrArg _ (Nat.div_add_mod i 4).symm).trans
    (getElem?_flatMap_toBytes (Nat.mod_lt _ (by decide)))

/-- The words of bytes, one by one. -/
theorem getElem?_ofBytes : (ofBytes bytes)[k]? = at? bytes (4 * k) := by
  unfold ofBytes at?
  rw [Array.getElem?_ofFn]
  by_cases h : k < bytes.size / 4
  · rw [dif_pos h, dif_pos (by omega)]
  · rw [dif_neg h, dif_neg (by omega)]

/-- The bytes of the words behind the first `k`. -/
theorem toBytes_extract : toBytes (ws.extract k) = (toBytes ws).extract (4 * k) := by
  refine Array.ext_getElem? fun i => ?_
  have hdiv : (4 * k + i) / 4 = k + i / 4 := by omega
  have hmod : (4 * k + i) % 4 = i % 4 := by omega
  rw [getElem?_toBytes, Array.getElem?_extract, Array.getElem?_extract, getElem?_toBytes, hdiv,
    hmod, size_toBytes, Nat.min_self, Nat.min_self]
  by_cases h : i / 4 < ws.size - k
  · rw [if_pos h, if_pos (by omega)]
  · rw [if_neg h, if_neg (by omega)]
    rfl

/-- Bytes that are whole words are the bytes of these words. -/
theorem toBytes_ofBytes (h : 4 ∣ bytes.size) : toBytes (ofBytes bytes) = bytes := by
  refine Array.ext_getElem? fun i => ?_
  rw [getElem?_toBytes, getElem?_ofBytes, at?]
  have hlt : i % 4 < 4 := Nat.mod_lt _ (by decide)
  have hi : 4 * (i / 4) + i % 4 = i := Nat.div_add_mod i 4
  by_cases hsize : 4 * (i / 4) + 3 < bytes.size
  · rw [dif_pos hsize, Option.bind_some, Word.toBytes_ofBytes]
    generalize i % 4 = j at *
    generalize i / 4 = k at *
    subst hi
    rw [Array.getElem?_eq_getElem (show 4 * k + j < bytes.size by omega)]
    interval_cases j <;> rfl
  · rw [dif_neg hsize, Array.getElem?_eq_none (by omega)]
    rfl

end Words

namespace Reader

variable {m : Reader} {submit va count : Nat} {bytes : Bytes}

theorem words_of_read? (h : m.read? submit va (4 * count) = some bytes) :
    ∃ ws : Vector UInt32 count, m.words submit va count = .ok ws ∧
      ws.toArray = Words.ofBytes bytes := by
  have hsize := m.size_read? h
  obtain rfl : count = bytes.size / 4 := by omega
  unfold words
  split
  · rename_i bytes' h'
    obtain rfl : bytes' = bytes := Option.some.inj (h'.symm.trans h)
    exact ⟨_, rfl, Vector.toArray_ofFn⟩
  · rename_i hnone
    cases hnone.symm.trans h

/-- The words that are read are those of the bytes that lie in memory. -/
theorem words_eq_ok_iff {ws : Vector UInt32 count} : m.words submit va count = .ok ws ↔
    ∃ bytes, m.read? submit va (4 * count) = some bytes ∧ ws.toArray = Words.ofBytes bytes := by
  constructor
  · intro h
    cases hread : m.read? submit va (4 * count) with
    | none =>
      unfold words at h
      split at h
      · rename_i hsome
        cases hread.symm.trans hsome
      · cases h
    | some bytes =>
      obtain ⟨ws', hws, heq⟩ := words_of_read? hread
      cases h.symm.trans hws
      exact ⟨bytes, rfl, heq⟩
  · rintro ⟨bytes, hread, heq⟩
    obtain ⟨ws', hws, heq'⟩ := words_of_read? hread
    rw [hws, Vector.toArray_inj.mp (heq'.trans heq.symm)]

end Reader

/-! ## Calls -/

namespace CallMarker

variable {bytes : Bytes} {call : CallMarker}

/-- The call that a packet in memory marks: the word behind the header has the signature and the
command's number, and the arguments are the bytes behind that word. -/
theorem ofPacket?_ofBytes (h : 4 ∣ bytes.size) : ofPacket? (Words.ofBytes bytes) = some call ↔
    (∃ first, Words.at? bytes 4 = some first ∧ signatureOf first = signature ∧
      call.command.id = commandId first) ∧ call.args = bytes.extract 8 := by
  have hargs : Words.toBytes ((Words.ofBytes bytes).extract 2) = bytes.extract 8 := by
    rw [Words.toBytes_extract, Words.toBytes_ofBytes h]
  have hcommand (first : UInt32) (command : Command) : command? first = some command ↔
      signatureOf first = signature ∧ command.id = commandId first := by
    rw [command?, hasSignature, ← Command.ofId?_eq_some_iff]
    simp
  have hat : (Words.ofBytes bytes)[1]? = Words.at? bytes 4 := Words.getElem?_ofBytes
  obtain ⟨command, args⟩ := call
  rw [ofPacket?, hat, hargs]
  simp only [Option.bind_eq_bind, Option.bind_eq_some_iff, hcommand, Option.pure_def,
    Option.some.injEq, mk.injEq]
  constructor
  · rintro ⟨first, hfirst, _, ⟨hsignature, hid⟩, rfl, rfl⟩
    exact ⟨⟨first, hfirst, hsignature, hid⟩, rfl⟩
  · rintro ⟨⟨first, hfirst, hsignature, hid⟩, rfl⟩
    exact ⟨first, hfirst, command, ⟨hsignature, hid⟩, rfl, rfl⟩

/-- The text under which a call is listed. The calls that only close a label are not listed. -/
structure ListedAs (call : CallMarker) (printer : CallPrinter) (version : UInt32) (text : String) :
    Prop where
  /-- A label is listed under the text before the first zero byte. -/
  label : call.command.opensLabel ∨ call.command.insertsLabel → ∀ label : String, label ≠ "" →
    textBytes label = call.args.takeWhile (· != 0) → text = label
  /-- It is listed under the name of its command if there is no such text. -/
  unlabelled : call.command.opensLabel ∨ call.command.insertsLabel →
    (∀ label : String, label ≠ "" → textBytes label ≠ call.args.takeWhile (· != 0)) →
    text = call.command.name
  /-- Any other call is listed under the name of its command and its arguments. -/
  other : ¬(call.command.opensLabel ∨ call.command.insertsLabel) →
    text = call.command.name ++ printer call.command call.args version

end CallMarker

theorem text?_eq_some_iff {bytes : Bytes} {s : String} :
    text? bytes = some s ↔ textBytes s = bytes := by
  unfold text? textBytes String.fromUTF8?
  constructor
  · intro h
    split at h
    · cases h
      rfl
    · cases h
  · rintro rfl
    have hvalid : ByteArray.IsValidUTF8 ⟨s.toUTF8.data⟩ := s.isValidUTF8
    exact dif_pos hvalid

namespace CallMarker

variable {call : CallMarker} {printer : CallPrinter} {version : UInt32}

theorem listedAs_labelText (h : call.command.opensLabel ∨ call.command.insertsLabel) :
    call.ListedAs printer version call.labelText where
  label _ label hne hlabel := by
    rw [labelText, labelText?, text?_eq_some_iff.mpr hlabel]
    exact if_neg (by simpa using hne)
  unlabelled _ hnone := by
    rw [labelText]
    split
    · rename_i label hlabel
      refine if_pos ?_
      by_contra hne
      exact hnone label (by simpa using hne) (text?_eq_some_iff.mp hlabel)
    · rfl
  other hnot := absurd h hnot

theorem listedAs_text (h : ¬(call.command.opensLabel ∨ call.command.insertsLabel)) :
    call.ListedAs printer version (call.text printer version) where
  label hlabel := absurd hlabel h
  unlabelled hlabel := absurd hlabel h
  other _ := rfl

end CallMarker

end CaptureForest
