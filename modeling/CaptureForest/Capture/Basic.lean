import CaptureForest.Capture.Submit
import CaptureForest.Memory.Reader

/-! # Captures

Everything that a build reads. -/

namespace CaptureForest

structure Capture where
  submits : List Submit := []
  presents : List Present := []
  memory : Reader
  /-- The version of the format in which call markers hold their arguments. -/
  metadataVersion : UInt32 := 0

end CaptureForest
