import CaptureForest.Memory.Reader

/-! # Flat memory

A single command stream, whose addresses are places in it. -/

namespace CaptureForest

/-- The `size` bytes from `start` on, if all of them are there. -/
def slice? (bytes : Bytes) (start size : Nat) : Option Bytes :=
  if start + size ≤ bytes.size then some (bytes.extract start (start + size)) else none

theorem size_slice? {bytes part : Bytes} {start size : Nat}
    (h : slice? bytes start size = some part) : part.size = size := by
  unfold slice? at h
  split at h
  · cases h
    rw [Array.size_extract]
    omega
  · contradiction

namespace Reader

def flat (bytes : Bytes) : Reader where
  read? _ va size := slice? bytes va size
  size_read? h := size_slice? h

end Reader

end CaptureForest
