/-! # Vulkan commands

The commands whose calls a capture layer records. Each has an id, by which a call marker names
it, and a name. `Command.isEvent` tells which of them do GPU work of their own. -/

namespace CaptureForest

inductive Command where
  | beginCommandBuffer
  | endCommandBuffer
  | resetCommandBuffer
  | draw
  | drawIndexed
  | drawIndirect
  | drawIndexedIndirect
  | drawIndirectCount
  | drawIndexedIndirectCount
  | dispatch
  | dispatchIndirect
  | dispatchBase
  | pipelineBarrier
  | beginRenderPass
  | endRenderPass
  | nextSubpass
  | clearAttachments
  | clearColorImage
  | clearDepthStencilImage
  | fillBuffer
  | copyImage
  | copyBufferToImage
  | copyBuffer
  | copyImageToBuffer
  | blitImage
  | resolveImage
  | updateBuffer
  | resetQueryPool
  | copyQueryPoolResults
  | beginQuery
  | endQuery
  | writeTimestamp
  | executeCommands
  | bindPipeline
  | bindDescriptorSets
  | bindVertexBuffers
  | bindIndexBuffer
  | setViewport
  | setScissor
  | pushConstants
  | setEvent
  | waitEvents
  | debugMarkerBegin
  | debugMarkerEnd
  | debugMarkerInsert
  | beginDebugUtilsLabel
  | endDebugUtilsLabel
  | insertDebugUtilsLabel
  | queueSubmit
  deriving DecidableEq, Repr, Inhabited

namespace Command

/-- The number that stands for a command in a call marker. -/
def id : Command → UInt8
  | .beginCommandBuffer => 1
  | .endCommandBuffer => 2
  | .resetCommandBuffer => 3
  | .draw => 10
  | .drawIndexed => 11
  | .drawIndirect => 12
  | .drawIndexedIndirect => 13
  | .drawIndirectCount => 14
  | .drawIndexedIndirectCount => 15
  | .dispatch => 16
  | .dispatchIndirect => 17
  | .dispatchBase => 18
  | .pipelineBarrier => 20
  | .beginRenderPass => 21
  | .endRenderPass => 22
  | .nextSubpass => 23
  | .clearAttachments => 24
  | .clearColorImage => 25
  | .clearDepthStencilImage => 26
  | .fillBuffer => 27
  | .copyImage => 28
  | .copyBufferToImage => 29
  | .copyBuffer => 30
  | .copyImageToBuffer => 31
  | .blitImage => 32
  | .resolveImage => 33
  | .updateBuffer => 34
  | .resetQueryPool => 35
  | .copyQueryPoolResults => 36
  | .beginQuery => 37
  | .endQuery => 38
  | .writeTimestamp => 39
  | .executeCommands => 40
  | .bindPipeline => 41
  | .bindDescriptorSets => 42
  | .bindVertexBuffers => 43
  | .bindIndexBuffer => 44
  | .setViewport => 45
  | .setScissor => 46
  | .pushConstants => 47
  | .setEvent => 48
  | .waitEvents => 49
  | .debugMarkerBegin => 50
  | .debugMarkerEnd => 51
  | .debugMarkerInsert => 52
  | .beginDebugUtilsLabel => 53
  | .endDebugUtilsLabel => 54
  | .insertDebugUtilsLabel => 55
  | .queueSubmit => 60

def name : Command → String
  | .beginCommandBuffer => "vkBeginCommandBuffer"
  | .endCommandBuffer => "vkEndCommandBuffer"
  | .resetCommandBuffer => "vkResetCommandBuffer"
  | .draw => "vkCmdDraw"
  | .drawIndexed => "vkCmdDrawIndexed"
  | .drawIndirect => "vkCmdDrawIndirect"
  | .drawIndexedIndirect => "vkCmdDrawIndexedIndirect"
  | .drawIndirectCount => "vkCmdDrawIndirectCount"
  | .drawIndexedIndirectCount => "vkCmdDrawIndexedIndirectCount"
  | .dispatch => "vkCmdDispatch"
  | .dispatchIndirect => "vkCmdDispatchIndirect"
  | .dispatchBase => "vkCmdDispatchBase"
  | .pipelineBarrier => "vkCmdPipelineBarrier"
  | .beginRenderPass => "vkCmdBeginRenderPass"
  | .endRenderPass => "vkCmdEndRenderPass"
  | .nextSubpass => "vkCmdNextSubpass"
  | .clearAttachments => "vkCmdClearAttachments"
  | .clearColorImage => "vkCmdClearColorImage"
  | .clearDepthStencilImage => "vkCmdClearDepthStencilImage"
  | .fillBuffer => "vkCmdFillBuffer"
  | .copyImage => "vkCmdCopyImage"
  | .copyBufferToImage => "vkCmdCopyBufferToImage"
  | .copyBuffer => "vkCmdCopyBuffer"
  | .copyImageToBuffer => "vkCmdCopyImageToBuffer"
  | .blitImage => "vkCmdBlitImage"
  | .resolveImage => "vkCmdResolveImage"
  | .updateBuffer => "vkCmdUpdateBuffer"
  | .resetQueryPool => "vkCmdResetQueryPool"
  | .copyQueryPoolResults => "vkCmdCopyQueryPoolResults"
  | .beginQuery => "vkCmdBeginQuery"
  | .endQuery => "vkCmdEndQuery"
  | .writeTimestamp => "vkCmdWriteTimestamp"
  | .executeCommands => "vkCmdExecuteCommands"
  | .bindPipeline => "vkCmdBindPipeline"
  | .bindDescriptorSets => "vkCmdBindDescriptorSets"
  | .bindVertexBuffers => "vkCmdBindVertexBuffers"
  | .bindIndexBuffer => "vkCmdBindIndexBuffer"
  | .setViewport => "vkCmdSetViewport"
  | .setScissor => "vkCmdSetScissor"
  | .pushConstants => "vkCmdPushConstants"
  | .setEvent => "vkCmdSetEvent"
  | .waitEvents => "vkCmdWaitEvents"
  | .debugMarkerBegin => "vkCmdDebugMarkerBeginEXT"
  | .debugMarkerEnd => "vkCmdDebugMarkerEndEXT"
  | .debugMarkerInsert => "vkCmdDebugMarkerInsertEXT"
  | .beginDebugUtilsLabel => "vkCmdBeginDebugUtilsLabelEXT"
  | .endDebugUtilsLabel => "vkCmdEndDebugUtilsLabelEXT"
  | .insertDebugUtilsLabel => "vkCmdInsertDebugUtilsLabelEXT"
  | .queueSubmit => "vkQueueSubmit"

/-- Every command, in ascending order of the ids. -/
def all : List Command := [
  .beginCommandBuffer,
  .endCommandBuffer,
  .resetCommandBuffer,
  .draw,
  .drawIndexed,
  .drawIndirect,
  .drawIndexedIndirect,
  .drawIndirectCount,
  .drawIndexedIndirectCount,
  .dispatch,
  .dispatchIndirect,
  .dispatchBase,
  .pipelineBarrier,
  .beginRenderPass,
  .endRenderPass,
  .nextSubpass,
  .clearAttachments,
  .clearColorImage,
  .clearDepthStencilImage,
  .fillBuffer,
  .copyImage,
  .copyBufferToImage,
  .copyBuffer,
  .copyImageToBuffer,
  .blitImage,
  .resolveImage,
  .updateBuffer,
  .resetQueryPool,
  .copyQueryPoolResults,
  .beginQuery,
  .endQuery,
  .writeTimestamp,
  .executeCommands,
  .bindPipeline,
  .bindDescriptorSets,
  .bindVertexBuffers,
  .bindIndexBuffer,
  .setViewport,
  .setScissor,
  .pushConstants,
  .setEvent,
  .waitEvents,
  .debugMarkerBegin,
  .debugMarkerEnd,
  .debugMarkerInsert,
  .beginDebugUtilsLabel,
  .endDebugUtilsLabel,
  .insertDebugUtilsLabel,
  .queueSubmit]

def ofId? (id : UInt8) : Option Command := all.find? (·.id == id)

/-- Commands that do GPU work of their own. -/
def isEvent : Command → Bool
  | .draw | .drawIndexed | .drawIndirect | .drawIndexedIndirect | .drawIndirectCount
  | .drawIndexedIndirectCount | .dispatch | .dispatchIndirect | .dispatchBase
  | .pipelineBarrier | .beginRenderPass | .endRenderPass | .clearAttachments
  | .clearColorImage | .clearDepthStencilImage | .fillBuffer | .copyImage
  | .copyBufferToImage | .copyBuffer | .copyImageToBuffer | .resetQueryPool
  | .copyQueryPoolResults | .executeCommands | .queueSubmit => true
  | _ => false

/-- Commands that open a debug label. -/
def opensLabel : Command → Bool
  | .debugMarkerBegin | .beginDebugUtilsLabel => true
  | _ => false

/-- Commands that close a debug label. -/
def closesLabel : Command → Bool
  | .debugMarkerEnd | .endDebugUtilsLabel => true
  | _ => false

/-- Commands that set a debug label at a single point. -/
def insertsLabel : Command → Bool
  | .debugMarkerInsert | .insertDebugUtilsLabel => true
  | _ => false

end Command

end CaptureForest
