/-! # Opcodes

The operations that opcode packets name. `Opcode.name?` gives the name of an operation,
`Opcode.eventName?` that of the GPU work which a draw, a dispatch or a blit does; the latter are
the operations that end a run of state packets (`Opcode.isEvent`). -/

namespace CaptureForest.Opcode

def nop : UInt8 := 0x10
def waitMemWrites : UInt8 := 0x12
def waitForMe : UInt8 := 0x13
def drawAuto : UInt8 := 0x24
def waitForIdle : UInt8 := 0x26
def drawIndirect : UInt8 := 0x28
def drawIndexIndirect : UInt8 := 0x29
def drawIndirectMulti : UInt8 := 0x2a
def blit : UInt8 := 0x2c
def dispatch : UInt8 := 0x33
def callPfd : UInt8 := 0x37
def drawIndexOffset : UInt8 := 0x38
def waitRegMem : UInt8 := 0x3c
def memWrite : UInt8 := 0x3d
def callPfe : UInt8 := 0x3f
def dispatchIndirect : UInt8 := 0x41
def eventWrite : UInt8 := 0x46
def chain : UInt8 := 0x57
def setMarker : UInt8 := 0x65

/-- Every named operation, in ascending order. -/
def names : List (UInt8 × String) := [
  (0x10, "CP_NOP"),
  (0x11, "CP_RECORD_PFP_TIMESTAMP"),
  (0x12, "CP_WAIT_MEM_WRITES"),
  (0x13, "CP_WAIT_FOR_ME"),
  (0x14, "CP_WAIT_MEM_GTE"),
  (0x1d, "CP_SKIP_IB2_ENABLE_GLOBAL"),
  (0x21, "CP_REG_RMW"),
  (0x23, "CP_SKIP_IB2_ENABLE_LOCAL"),
  (0x24, "CP_DRAW_AUTO"),
  (0x26, "CP_WAIT_FOR_IDLE"),
  (0x28, "CP_DRAW_INDIRECT"),
  (0x29, "CP_DRAW_INDX_INDIRECT"),
  (0x2a, "CP_DRAW_INDIRECT_MULTI"),
  (0x2c, "CP_BLIT"),
  (0x2f, "CP_SET_BIN_DATA5"),
  (0x32, "CP_LOAD_STATE6_GEOM"),
  (0x33, "CP_EXEC_CS"),
  (0x34, "CP_LOAD_STATE6_FRAG"),
  (0x36, "CP_LOAD_STATE6"),
  (0x37, "CP_INDIRECT_BUFFER_PFD"),
  (0x38, "CP_DRAW_INDX_OFFSET"),
  (0x3c, "CP_WAIT_REG_MEM"),
  (0x3d, "CP_MEM_WRITE"),
  (0x3e, "CP_REG_TO_MEM"),
  (0x3f, "CP_INDIRECT_BUFFER_PFE"),
  (0x41, "CP_EXEC_CS_INDIRECT"),
  (0x42, "CP_MEM_TO_REG"),
  (0x43, "CP_SET_DRAW_STATE"),
  (0x46, "CP_EVENT_WRITE"),
  (0x50, "CP_START_BIN"),
  (0x51, "CP_END_BIN"),
  (0x57, "CP_INDIRECT_BUFFER_CHAIN"),
  (0x5c, "CP_CONTEXT_REG_BUNCH"),
  (0x63, "CP_SET_MODE"),
  (0x65, "CP_SET_MARKER")]

def name? (op : UInt8) : Option String := names.lookup op

/-- The name under which an operation is listed, `Unknown` for one without a name. -/
def displayName (op : UInt8) : String := (name? op).getD "Unknown"

/-- The operations that do GPU work, with the name of that work. -/
def eventNames : List (UInt8 × String) := [
  (drawIndexOffset, "DrawIndexOffset"),
  (drawIndirect, "DrawIndirect"),
  (drawIndexIndirect, "DrawIndexIndirect"),
  (drawIndirectMulti, "DrawIndirectMulti"),
  (drawAuto, "DrawAuto"),
  (dispatch, "Dispatch"),
  (dispatchIndirect, "DispatchIndirect"),
  (blit, "Blit")]

def eventName? (op : UInt8) : Option String := eventNames.lookup op

/-- The name of the GPU work that an operation does, `Unknown` for one that does none. -/
def eventName (op : UInt8) : String := (eventName? op).getD "Unknown"

/-- Draws, dispatches and blits end a run of state packets. -/
def isEvent (op : UInt8) : Bool := (eventName? op).isSome

/-- Packets that call an indirect buffer and continue behind it afterwards. -/
def isCall (op : UInt8) : Bool := op == callPfe || op == callPfd

end CaptureForest.Opcode
