import CaptureForest.Capture.Basic
import CaptureForest.Capture.Engine
import CaptureForest.Capture.IndirectBuffer
import CaptureForest.Capture.Submit
import CaptureForest.Error
import CaptureForest.Hierarchy.Basic
import CaptureForest.Hierarchy.Build
import CaptureForest.Hierarchy.Dump
import CaptureForest.Host.Functions
import CaptureForest.Host.Term
import CaptureForest.Memory.Blocks
import CaptureForest.Memory.Flat
import CaptureForest.Memory.Reader
import CaptureForest.Node.Basic
import CaptureForest.Packet.Builtin
import CaptureForest.Packet.Fields
import CaptureForest.Packet.Header
import CaptureForest.Packet.Layout
import CaptureForest.Packet.Opcode
import CaptureForest.Packet.Sync
import CaptureForest.Pass.Call
import CaptureForest.Pass.IbStack
import CaptureForest.Pass.Packet
import CaptureForest.Pass.State
import CaptureForest.Pass.Steps
import CaptureForest.Text.Bytes
import CaptureForest.Text.Hex
import CaptureForest.View.Basic
import CaptureForest.View.Derived
import CaptureForest.View.EdgeLists
import CaptureForest.View.Forest
import CaptureForest.View.Packed
import CaptureForest.View.PackedWalk
import CaptureForest.Vulkan.CallMarker
import CaptureForest.Vulkan.Command
import CaptureForest.Walk.Run
import CaptureForest.Walk.Step
import CaptureForest.Walk.Walker
import CaptureForest.Proofs.Action
import CaptureForest.Proofs.Packet.Builtin
import CaptureForest.Proofs.Packet.Fields
import CaptureForest.Proofs.Packet.Header
import CaptureForest.Proofs.Memory.Reader
import CaptureForest.Proofs.Vulkan.CallMarker
import CaptureForest.Proofs.Memory.Blocks
import CaptureForest.Proofs.Memory.Resident
import CaptureForest.Proofs.View.EdgeLists
import CaptureForest.Proofs.View.Derived
import CaptureForest.Proofs.View.Merged
import CaptureForest.Proofs.View.Bake
import CaptureForest.Proofs.View.Laws
import CaptureForest.Proofs.View.Branches
import CaptureForest.Proofs.View.Preorder
import CaptureForest.Proofs.View.StableSort
import CaptureForest.Proofs.Pass.Growth
import CaptureForest.Proofs.Pass.Packet
import CaptureForest.Proofs.Pass.Call
import CaptureForest.Proofs.Pass.Arranged
import CaptureForest.Proofs.Pass.Sound
import CaptureForest.Proofs.Pass.Steps
import CaptureForest.Proofs.Pass.Buffer
import CaptureForest.Proofs.Pass.Submit
import CaptureForest.Proofs.Pass.Follow
import CaptureForest.Proofs.Pass.Runs
import CaptureForest.Proofs.Pass.Apart
import CaptureForest.Proofs.Pass.Mirror
import CaptureForest.Proofs.Pass.Nested
import CaptureForest.Proofs.Pass.Typed
import CaptureForest.Proofs.Pass.Scoped
import CaptureForest.Proofs.Pass.Levels
import CaptureForest.Proofs.Pass.Reach
import CaptureForest.Proofs.Pass.Owners
import CaptureForest.Proofs.Pass.Flags
import CaptureForest.Proofs.Pass.Contents
import CaptureForest.Proofs.Pass.Waiting
import CaptureForest.Proofs.Pass.Ascending
import CaptureForest.Proofs.Pass.Sharing
import CaptureForest.Proofs.Pass.Numbers
import CaptureForest.Proofs.Pass.Tied
import CaptureForest.Proofs.Pass.Tree
import CaptureForest.Proofs.Pass.Order
import CaptureForest.Proofs.Pass.Tops
import CaptureForest.Proofs.Hierarchy.Runs
import CaptureForest.Proofs.Hierarchy.Calls
import CaptureForest.Proofs.Hierarchy.Numbers
import CaptureForest.Proofs.Pass.Filing
import CaptureForest.Proofs.Hierarchy.Finish
import CaptureForest.Proofs.Hierarchy.Tops
import CaptureForest.Proofs.Pass.Paired
import CaptureForest.Proofs.Hierarchy.Progress
import CaptureForest.Proofs.Hierarchy.Sessions
import CaptureForest.Proofs.Hierarchy.Faults
import CaptureForest.Proofs.Hierarchy.Forests
import CaptureForest.Proofs.Hierarchy.Buffers
import CaptureForest.Proofs.Hierarchy.Moments
import CaptureForest.Proofs.Hierarchy.Takeover
import CaptureForest.Proofs.Hierarchy.Signals
import CaptureForest.Proofs.Hierarchy.Fields
import CaptureForest.Proofs.Hierarchy.Markers
import CaptureForest.Proofs.Hierarchy.Mirror
import CaptureForest.Proofs.Hierarchy.Begins
import CaptureForest.Proofs.Hierarchy.Sharing
import CaptureForest.Proofs.Hierarchy.Submits
import CaptureForest.Proofs.Hierarchy.Order
import CaptureForest.Proofs.Hierarchy.Returns
import CaptureForest.Proofs.Hierarchy.Scopes
import CaptureForest.Proofs.Walk.Related
import CaptureForest.Proofs.Walk.Record
import CaptureForest.Proofs.Walk.Position
import CaptureForest.Proofs.Walk.Bracket
import CaptureForest.Proofs.Walk.Coherent
import CaptureForest.Proofs.Walk.Listed
import CaptureForest.Proofs.Walk.Walker
import CaptureForest.Proofs.Walk.Ends
import CaptureForest.Proofs.Agree
import CaptureForest.Proofs.View.Packed
import CaptureForest.Proofs.View.Climb
import CaptureForest.Proofs.View.Refused
import CaptureForest.Proofs.View.PackedBake
import CaptureForest.Proofs.View.DepthFirst
import CaptureForest.Proofs.Hierarchy.Walks
import CaptureForest.Proofs.Pass.Renames
import CaptureForest.Proofs.Pass.Lockstep
import CaptureForest.Proofs.Pass.LockstepSubmit
import CaptureForest.Proofs.Pass.Rests
import CaptureForest.Proofs.Hierarchy.Lockstep
import CaptureForest.Proofs.Pass.Chains
import CaptureForest.Proofs.Hierarchy.Chains
import CaptureForest.Proofs.Hierarchy.Engines
import CaptureForest.Proofs.Hierarchy.Renames
import CaptureForest.Proofs.Hierarchy.Streams
import CaptureForest.Proofs.View.Removal
import CaptureForest.Memory.Search
import CaptureForest.Proofs.Memory.Search
import CaptureForest.Proofs.Memory.Orders
import CaptureForest.Proofs.Packet.Parity
import CaptureForest.Proofs.Packet.Flips
import CaptureForest.Proofs.View.Ascent
import CaptureForest.Proofs.Hierarchy.Dumps
import CaptureForest.Proofs.Pass.TypedActions
import CaptureForest.Proofs.Hierarchy.Questions
