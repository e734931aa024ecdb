import CaptureForest.Packet.Builtin

/-! # Synchronisation packets

`Sync.ofPacket?` tells which opcode packets synchronise the GPU: the waits, and the event writes
that flush or invalidate a cache. Beside the kind it gives an info word: the first payload word
of a register or memory wait, the event type of a cache operation, and zero for the others. -/

namespace CaptureForest

inductive SyncKind where
  | waitForIdle
  | waitForMe
  | waitRegMem
  | waitMemWrites
  | cacheFlush
  | cacheInvalidate
  deriving DecidableEq, Repr, Inhabited

def SyncKind.name : SyncKind → String
  | .waitForIdle => "WaitForIdle"
  | .waitForMe => "WaitForMe"
  | .waitRegMem => "WaitRegMem"
  | .waitMemWrites => "WaitMemWrites"
  | .cacheFlush => "CacheFlush"
  | .cacheInvalidate => "CacheInvalidate"

/-- A synchronisation with its info word. -/
structure Sync where
  kind : SyncKind
  info : UInt32
  deriving DecidableEq, Repr, Inhabited

namespace Sync

/-- The event types that flush a cache. -/
def flushEvents : List UInt32 := [4, 6, 28, 29]

/-- The event types that invalidate a cache. -/
def invalidateEvents : List UInt32 := [24, 25, 49]

/-- The cache operation that an event type asks for. -/
def ofEvent? (event : UInt32) : Option Sync :=
  if event ∈ flushEvents then some ⟨.cacheFlush, event⟩
  else if event ∈ invalidateEvents then some ⟨.cacheInvalidate, event⟩
  else none

/-- The synchronisation that an `op` packet does; `words` is the whole packet. -/
def ofPacket? (op : UInt8) (words : Array UInt32) : Option Sync :=
  if op = Opcode.waitForIdle then some ⟨.waitForIdle, 0⟩
  else if op = Opcode.waitForMe then some ⟨.waitForMe, 0⟩
  else if op = Opcode.waitMemWrites then some ⟨.waitMemWrites, 0⟩
  else if op = Opcode.waitRegMem then some ⟨.waitRegMem, words[1]?.getD 0⟩
  else if op = Opcode.eventWrite then
    words[1]?.bind fun w => ofEvent? (w &&& Layouts.eventTypeMask)
  else none

/-- The text under which a synchronisation is listed; a cache operation also names its event. -/
def text (l : Layouts) (s : Sync) : String :=
  match s.kind with
  | .cacheFlush | .cacheInvalidate => s.kind.name ++ ": " ++ l.eventTypeText s.info
  | _ => s.kind.name

end Sync

end CaptureForest
