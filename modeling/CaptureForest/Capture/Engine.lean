/-! # Engines

The parts of a GPU that work is submitted to. Queue families bear the same names, so `Engine`
also tells which family a submit came from. -/

namespace CaptureForest

/-- An engine of the GPU, or the queue family that feeds it. -/
inductive Engine where
  | universal
  | compute
  | dma
  | timer
  | other
  deriving DecidableEq, Repr, Inhabited

namespace Engine

/-- Every engine, in the order in which a full hierarchy lists them. -/
def all : List Engine := [.universal, .compute, .dma, .timer, .other]

def name : Engine → String
  | .universal => "Universal"
  | .compute => "Compute"
  | .dma => "DMA"
  | .timer => "Timer"
  | .other => "Other"

/-- The lowercase word that selects an engine. -/
def key : Engine → String
  | .universal => "universal"
  | .compute => "compute"
  | .dma => "dma"
  | .timer => "timer"
  | .other => "other"

def ofKey? (key : String) : Option Engine := all.find? (·.key == key)

/-- Engines whose command streams consist of packets. -/
def isDecodable : Engine → Bool
  | .universal | .compute | .dma => true
  | .timer | .other => false

end Engine

end CaptureForest
