import CaptureForest.Packet.Layout

/-! # Built-in layouts

`Layouts.builtin` covers the packets that shape a hierarchy, a handful of registers, and the
names of event types, primitive types and wait functions. The fields of each packet are in
ascending order of the words that they lie in. -/

namespace CaptureForest.Layouts

/-- The bits of the third payload word of a buffer packet that hold the buffer's size. -/
def bufferSizeMask : UInt32 := 0x000fffff

/-- The bits of the first payload word of an event write that hold the event type. -/
def eventTypeMask : UInt32 := 0xff

namespace Builtin

/-- A field that fills its word. -/
def whole (name : String) (word : Nat) : PacketField :=
  { name, mask := 0xffffffff, shift := 0, word }

/-- A field of some bits of a word. -/
def bits (name : String) (word : Nat) (mask shift : UInt32) : PacketField :=
  { name, mask, shift, word }

/-! ## Packets -/

/-- Address and size of the buffer that a packet calls or continues into. -/
def bufferFields : List PacketField := [
  whole "IB_BASE_LO" 1,
  whole "IB_BASE_HI" 2,
  bits "IB_SIZE" 3 bufferSizeMask 0]

def primitiveType : PacketField :=
  { name := "PRIM_TYPE", mask := 0x3f, shift := 0, word := 1, enumeration := some primitiveTypes }

def sourceSelect : PacketField := bits "SOURCE_SELECT" 1 0xc0 6
def visibilityCull : PacketField := bits "VIS_CULL" 1 0x300 8
def indexSize : PacketField := bits "INDEX_SIZE" 1 0xc00 10

def drawIndexOffsetFields : List PacketField := [
  primitiveType,
  sourceSelect,
  visibilityCull,
  indexSize,
  whole "NUM_INSTANCES" 2,
  whole "NUM_INDICES" 3,
  whole "FIRST_INDX" 4,
  whole "INDX_BASE_LO" 5,
  whole "INDX_BASE_HI" 6,
  whole "MAX_INDICES" 7]

def drawIndirectFields : List PacketField := [
  primitiveType,
  sourceSelect,
  whole "INDIRECT_LO" 2,
  whole "INDIRECT_HI" 3]

def drawIndexIndirectFields : List PacketField := [
  primitiveType,
  sourceSelect,
  indexSize,
  whole "INDX_BASE_LO" 2,
  whole "INDX_BASE_HI" 3,
  whole "MAX_INDICES" 4,
  whole "INDIRECT_LO" 5,
  whole "INDIRECT_HI" 6]

def drawAutoFields : List PacketField := [
  primitiveType,
  whole "NUM_INSTANCES" 2,
  whole "NUM_VERTICES_BASE_LO" 3,
  whole "NUM_VERTICES_BASE_HI" 4]

def dispatchFields : List PacketField := [
  whole "NGROUPS_X" 2,
  whole "NGROUPS_Y" 3,
  whole "NGROUPS_Z" 4]

def dispatchIndirectFields : List PacketField := [
  whole "ADDR_LO" 2,
  whole "ADDR_HI" 3,
  bits "LOCALSIZEX" 4 0x7fe 2,
  bits "LOCALSIZEY" 4 0x1ff800 11,
  bits "LOCALSIZEZ" 4 0xffe00000 21]

def blitFields : List PacketField := [
  bits "OP" 1 0xf 0,
  bits "SRC_X1" 2 0x3fff 0,
  bits "SRC_Y1" 2 0x3fff0000 16,
  bits "SRC_X2" 3 0x3fff 0,
  bits "SRC_Y2" 3 0x3fff0000 16,
  bits "DST_X1" 4 0x3fff 0,
  bits "DST_Y1" 4 0x3fff0000 16]

def eventWriteFields : List PacketField := [
  { name := "EVENT", mask := eventTypeMask, shift := 0, word := 1, enumeration := some eventTypes },
  whole "ADDR_LO" 2,
  whole "ADDR_HI" 3,
  whole "DATA" 4]

def waitRegMemFields : List PacketField := [
  { name := "FUNCTION", mask := 0x7, shift := 0, word := 1, enumeration := some waitFunctions },
  bits "MEM_SPACE" 1 0x10 4,
  whole "POLL_ADDR_LO" 2,
  whole "POLL_ADDR_HI" 3,
  whole "REF" 4,
  whole "MASK" 5,
  whole "DELAY_LOOP_CYCLES" 6]

def memWriteFields : List PacketField := [
  whole "ADDR_LO" 1,
  whole "ADDR_HI" 2]

def setMarkerFields : List PacketField := [
  bits "MODE" 1 0xf 0]

/-- The packets with a layout and their fields, in ascending order of the operations. -/
def packetFields : List (UInt8 × List PacketField) := [
  (Opcode.nop, []),
  (Opcode.waitMemWrites, []),
  (Opcode.waitForMe, []),
  (Opcode.drawAuto, drawAutoFields),
  (Opcode.waitForIdle, []),
  (Opcode.drawIndirect, drawIndirectFields),
  (Opcode.drawIndexIndirect, drawIndexIndirectFields),
  (Opcode.blit, blitFields),
  (Opcode.dispatch, dispatchFields),
  (Opcode.callPfd, bufferFields),
  (Opcode.drawIndexOffset, drawIndexOffsetFields),
  (Opcode.waitRegMem, waitRegMemFields),
  (Opcode.memWrite, memWriteFields),
  (Opcode.callPfe, bufferFields),
  (Opcode.dispatchIndirect, dispatchIndirectFields),
  (Opcode.eventWrite, eventWriteFields),
  (Opcode.chain, bufferFields),
  (Opcode.setMarker, setMarkerFields)]

/-- Each layout bears the name of its operation. -/
def packets : List (UInt8 × PacketLayout) :=
  packetFields.map fun (op, fields) => (op, { name := Opcode.displayName op, fields })

/-! ## Registers -/

def registers : List (Nat × RegisterLayout) := [
  (0x8801, {
    name := "RB_RENDER_CNTL"
    fields := [
      { name := "FLAG_DEPTH", mask := 0x4000, shift := 14 },
      { name := "FLAG_MRTS", mask := 0xff0000, shift := 16 }] }),
  (0x8871, {
    name := "RB_DEPTH_CNTL"
    fields := [
      { name := "Z_TEST_ENABLE", mask := 0x1, shift := 0 },
      { name := "Z_WRITE_ENABLE", mask := 0x2, shift := 1 },
      { name := "ZFUNC", mask := 0x1c, shift := 2 }] }),
  (0x8e07, { name := "RB_CCU_CNTL", fields := [] }),
  (0xa00e, { name := "VFD_INDEX_OFFSET", fields := [] }),
  (0xa00f, { name := "VFD_INSTANCE_START_OFFSET", fields := [] })]

/-! ## Enumerations -/

def enumerations : List ((Nat × UInt32) × String) := [
  ((eventTypes, 4), "CACHE_FLUSH_TS"),
  ((eventTypes, 6), "CACHE_FLUSH"),
  ((eventTypes, 22), "RB_DONE_TS"),
  ((eventTypes, 24), "PC_CCU_INVALIDATE_DEPTH"),
  ((eventTypes, 25), "PC_CCU_INVALIDATE_COLOR"),
  ((eventTypes, 26), "PC_CCU_RESOLVE_TS"),
  ((eventTypes, 28), "PC_CCU_FLUSH_DEPTH_TS"),
  ((eventTypes, 29), "PC_CCU_FLUSH_COLOR_TS"),
  ((eventTypes, 30), "BLIT"),
  ((eventTypes, 49), "CACHE_INVALIDATE"),
  ((primitiveTypes, 0), "DI_PT_NONE"),
  ((primitiveTypes, 1), "DI_PT_POINTLIST"),
  ((primitiveTypes, 2), "DI_PT_LINELIST"),
  ((primitiveTypes, 3), "DI_PT_LINESTRIP"),
  ((primitiveTypes, 4), "DI_PT_TRILIST"),
  ((primitiveTypes, 5), "DI_PT_TRIFAN"),
  ((primitiveTypes, 6), "DI_PT_TRISTRIP"),
  ((waitFunctions, 0), "WRITE_ALWAYS"),
  ((waitFunctions, 1), "WRITE_LT"),
  ((waitFunctions, 2), "WRITE_LE"),
  ((waitFunctions, 3), "WRITE_EQ"),
  ((waitFunctions, 4), "WRITE_NE"),
  ((waitFunctions, 5), "WRITE_GE"),
  ((waitFunctions, 6), "WRITE_GT")]

end Builtin

/-- The layouts that are used when no others are given. -/
def builtin : Layouts := ofLists Builtin.packets Builtin.registers Builtin.enumerations

end CaptureForest.Layouts
