import CaptureForest.Walk.Step

/-! # Reads that fail

Every read of a walk that fails does so for want of captured memory (`Reader.Misses`). -/

namespace CaptureForest

/-- The error names memory that was not captured, or that runs past the largest address. -/
def Reader.Misses (m : Reader) (submit : Nat) (e : Error) : Prop :=
  ∃ va size, e = .memoryRead submit va size ∧
    (m.read? submit va size = none ∨ maxAddress < va + size)

variable {m : Reader} {submit va count : Nat} {e : Error}

theorem Reader.misses_of_word (h : m.word submit va = .error e) : m.Misses submit e := by
  unfold word at h
  split at h
  · cases h
  · rename_i hnone
    cases h
    exact ⟨va, 4, rfl, .inl hnone⟩

theorem Reader.misses_of_words (h : m.words submit va count = .error e) : m.Misses submit e := by
  unfold words at h
  split at h
  · cases h
  · rename_i hnone
    cases h
    exact ⟨va, 4 * count, rfl, .inl hnone⟩

theorem IndirectBuffer.misses_of_ofPacket {constantEngine : Bool} {header : UInt32}
    (h : ofPacket m submit constantEngine va header = .error e) : m.Misses submit e := by
  unfold ofPacket at h
  split at h
  · cases h
  · split at h
    · cases hw : m.words submit (va + 4) targetWords with
      | error e' => rw [hw] at h; cases h; exact Reader.misses_of_words hw
      | ok words => rw [hw] at h; cases h
    · cases h
      exact ⟨va, _, rfl, .inr (by omega)⟩

end CaptureForest
