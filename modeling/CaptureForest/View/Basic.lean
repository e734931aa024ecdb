/-! # Views

The ways in which a hierarchy arranges its nodes. -/

namespace CaptureForest

inductive View where
  /-- Engines, their submits, and the buffers of each. -/
  | engine
  /-- Submits and the buffers of each. -/
  | submit
  /-- Submits with the markers and events of each. -/
  | allEvent
  /-- Submits with the recorded calls alone: no events, no synchronisation, no barriers. -/
  | vulkanCall
  /-- The recorded calls that do GPU work; the others are merged into the call that follows. -/
  | vulkanEvent
  /-- Submits with markers and events, nested by the internal markers. -/
  | rgp
  deriving DecidableEq, Repr, Inhabited

namespace View

def all : List View := [.engine, .submit, .allEvent, .vulkanCall, .vulkanEvent, .rgp]

/-- The views that list packets with their fields. -/
def withPackets : List View := [.engine, .submit, .allEvent, .rgp]

/-- The views that list buffers. -/
def withBuffers : List View := [.engine, .submit]

/-- The views that nest events in markers. -/
def withEvents : List View := [.allEvent, .rgp]

def key : View → String
  | .engine => "engine"
  | .submit => "submit"
  | .allEvent => "all_event"
  | .vulkanCall => "vulkan_call"
  | .vulkanEvent => "vulkan_event"
  | .rgp => "rgp"

def ofKey? (key : String) : Option View := all.find? (·.key == key)

/-- The place of a view in `all`. -/
def index : View → Nat
  | .engine => 0
  | .submit => 1
  | .allEvent => 2
  | .vulkanCall => 3
  | .vulkanEvent => 4
  | .rgp => 5

end View

structure Views (α : Type) where
  engine : α
  submit : α
  allEvent : α
  vulkanCall : α
  vulkanEvent : α
  rgp : α
  deriving DecidableEq, Repr

namespace Views

def replicate {α : Type} (a : α) : Views α := ⟨a, a, a, a, a, a⟩

instance {α : Type} [Inhabited α] : Inhabited (Views α) := ⟨replicate default⟩

def get {α : Type} (vs : Views α) : View → α
  | .engine => vs.engine
  | .submit => vs.submit
  | .allEvent => vs.allEvent
  | .vulkanCall => vs.vulkanCall
  | .vulkanEvent => vs.vulkanEvent
  | .rgp => vs.rgp

/-- Puts `a` in place of the value for a view. -/
def set {α : Type} (vs : Views α) (v : View) (a : α) : Views α :=
  match v with
  | .engine => { vs with engine := a }
  | .submit => { vs with submit := a }
  | .allEvent => { vs with allEvent := a }
  | .vulkanCall => { vs with vulkanCall := a }
  | .vulkanEvent => { vs with vulkanEvent := a }
  | .rgp => { vs with rgp := a }

def map {α β : Type} (f : α → β) (vs : Views α) : Views β :=
  ⟨f vs.engine, f vs.submit, f vs.allEvent, f vs.vulkanCall, f vs.vulkanEvent, f vs.rgp⟩

/-- Applies `f` to the value for each view, in order. -/
def mapM {m : Type → Type} [Monad m] {α β : Type} (f : α → m β) (vs : Views α) :
    m (Views β) := do
  return {
    engine := ← f vs.engine
    submit := ← f vs.submit
    allEvent := ← f vs.allEvent
    vulkanCall := ← f vs.vulkanCall
    vulkanEvent := ← f vs.vulkanEvent
    rgp := ← f vs.rgp }

end Views

end CaptureForest
