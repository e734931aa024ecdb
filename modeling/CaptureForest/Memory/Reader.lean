import CaptureForest.Error

/-! # Captured memory

A `Reader` answers reads of captured memory: the bytes of a range, or nothing if any of them was
not captured. `Reader.bytes`, `Reader.word` and `Reader.words` turn the missing answer into an
error, and `Reader.isResident` probes a range by its two ends alone. -/

namespace CaptureForest

def maxAddress : Nat := UInt64.size - 1

/-- A view of captured memory. A read of `size` bytes gives `size` bytes or nothing; it may
depend on the submit that it is made for. -/
structure Reader where
  read? : (submit va size : Nat) → Option Bytes
  size_read? : ∀ {submit va size bytes}, read? submit va size = some bytes → bytes.size = size

namespace Reader

def bytes (m : Reader) (submit va size : Nat) : Except Error Bytes :=
  match m.read? submit va size with
  | some bytes => .ok bytes
  | none => .error (.memoryRead submit va size)

def word (m : Reader) (submit va : Nat) : Except Error UInt32 :=
  match h : m.read? submit va 4 with
  | some bytes =>
    have : bytes.size = 4 := m.size_read? h
    .ok (Word.ofBytes bytes[0] bytes[1] bytes[2] bytes[3])
  | none => .error (.memoryRead submit va 4)

def words (m : Reader) (submit va count : Nat) : Except Error (Vector UInt32 count) :=
  match h : m.read? submit va (4 * count) with
  | some bytes =>
    have : bytes.size = 4 * count := m.size_read? h
    .ok (Vector.ofFn fun i : Fin count =>
      Word.ofBytes bytes[4 * i.val] bytes[4 * i.val + 1] bytes[4 * i.val + 2] bytes[4 * i.val + 3])
  | none => .error (.memoryRead submit va (4 * count))

/-- Both ends of a range can be read: its first and its last word, or the whole of a range that is
shorter than a word. What lies between them is not looked at. -/
def isResident (m : Reader) (submit va size : Nat) : Bool :=
  let probe := min size 4
  let last := va + (size - probe)
  size == 0 ||
    (last ≤ maxAddress && (m.read? submit va probe).isSome && (m.read? submit last probe).isSome)

end Reader

end CaptureForest
