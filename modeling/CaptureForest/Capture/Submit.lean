import CaptureForest.Capture.Engine
import CaptureForest.Capture.IndirectBuffer

/-! # Submits and presents

What a capture records beside its memory: the submits in the order of their execution, and the
presents, each of which follows the submit that it names. -/

namespace CaptureForest

def flagText (b : Bool) : String := if b then "1" else "0"

/-- A submission of buffers to a queue. -/
structure Submit where
  engine : Engine
  /-- The family of the queue that it came from. -/
  queue : Engine
  engineIndex : Nat := 0
  /-- The submission carries no work, only synchronisation with other queues. -/
  dummy : Bool := false
  ibs : List IndirectBuffer
  deriving DecidableEq, Repr, Inhabited

def Submit.text (s : Submit) (index : Nat) : String :=
  "Submit: " ++ toString index ++ ", Num IBs: " ++ toString s.ibs.length ++
    ", Engine: " ++ s.engine.name ++ ", Queue: " ++ s.queue.name ++
    ", Engine Index: " ++ toString s.engineIndex ++ ", Dummy Submit: " ++ flagText s.dummy

/-- The packets of a submit are walked: it carries work for an engine that runs packets. -/
def Submit.isWalked (s : Submit) : Bool := !s.dummy && s.engine.isDecodable

/-! ## Presents -/

/-- The surface that a present shows. -/
structure Surface where
  fullScreen : Bool
  engine : Engine
  queue : Engine
  address : Nat
  size : Nat
  format : Nat
  colorSpace : Nat
  deriving DecidableEq, Repr, Inhabited

/-- The presentation of a surface after a submit. -/
structure Present where
  /-- The place of the submit that it follows. -/
  submit : Nat
  surface : Option Surface := none
  deriving DecidableEq, Repr, Inhabited

/-- The surface formats that have a name. -/
def surfaceFormats : List (Nat × String) := [
  (0, "VK_FORMAT_UNDEFINED"),
  (37, "VK_FORMAT_R8G8B8A8_UNORM"),
  (43, "VK_FORMAT_R8G8B8A8_SRGB"),
  (44, "VK_FORMAT_B8G8R8A8_UNORM"),
  (50, "VK_FORMAT_B8G8R8A8_SRGB"),
  (64, "VK_FORMAT_A2B10G10R10_UNORM_PACK32"),
  (97, "VK_FORMAT_R16G16B16A16_SFLOAT")]

def surfaceFormatText (format : Nat) : String :=
  (surfaceFormats.lookup format).getD "VK_FORMAT_UNKNOWN"

/-- The colour spaces that have a name. -/
def colorSpaces : List (Nat × String) := [
  (0, "VK_COLOR_SPACE_SRGB_NONLINEAR_KHR"),
  (1000104001, "VK_COLOR_SPACE_DISPLAY_P3_NONLINEAR_EXT"),
  (1000104002, "VK_COLOR_SPACE_EXTENDED_SRGB_LINEAR_EXT"),
  (1000104008, "VK_COLOR_SPACE_HDR10_ST2084_EXT")]

def colorSpaceText (colorSpace : Nat) : String :=
  (colorSpaces.lookup colorSpace).getD "VK_COLOR_SPACE_UNKNOWN"

def Surface.text (s : Surface) : String :=
  "FullScreen: " ++ flagText s.fullScreen ++ ", Engine: " ++ s.engine.name ++
    ", Queue: " ++ s.queue.name ++ ", SurfaceAddr: " ++ hex0x s.address ++
    ", SurfaceSize: " ++ toString s.size ++ ", VkFormat: " ++ surfaceFormatText s.format ++
    ", VkColorSpaceKHR: " ++ colorSpaceText s.colorSpace

def Present.text (p : Present) (index : Nat) : String :=
  "Present: " ++ toString index ++
    match p.surface with
    | some s => ", " ++ s.text
    | none => ""

end CaptureForest
