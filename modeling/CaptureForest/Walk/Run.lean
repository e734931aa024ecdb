import CaptureForest.Packet.Opcode
import CaptureForest.Walk.Step

/-! # Walks

`Walk.submit` walks the buffers that a submit lists. Each step goes to a receiver, which may have
a state of its own and may stop the walk by an error.

* `Walk.packets` goes through the packets of one buffer, up to its end or to a packet that chains
  into another buffer;
* `Walk.chain` goes through a buffer and the run of buffers chained to it, at most `maxChain`;
* `Walk.buffer` is the walk of a buffer that was listed or called, at most `maxDepth` deep.

The walk of a called buffer is an argument of the first two, so each of the three recurs on a
measure of its own: the bytes left, the links left and the levels left. -/

namespace CaptureForest

/-- What a walk runs on: the memory, the place of the submit, and the receiver of the steps. -/
structure Walk (σ : Type) where
  memory : Reader
  submit : Nat
  emit : Step → EStateM Error σ Unit

namespace Walk

variable {σ : Type}

/-- The buffer that a packet chains into, if it does; a called buffer is walked by `call`. -/
def followPacket (w : Walk σ) (call : IndirectBuffer → EStateM Error σ Unit) (ibIndex : Nat)
    (ib : IndirectBuffer) (va : Nat) (kind : PacketKind) (header : UInt32) :
    EStateM Error σ (Option IndirectBuffer) := do
  let some op := kind.opcode? header | return none
  if op == Opcode.chain then
    MonadExcept.ofExcept (IndirectBuffer.ofPacket w.memory w.submit ib.constantEngine va header)
  else if Opcode.isCall op then
    let target? ←
      MonadExcept.ofExcept (IndirectBuffer.ofPacket w.memory w.submit ib.constantEngine va header)
    if let some target := target? then
      w.emit (.enter ibIndex target .call)
      call target
    return none
  else
    return none

theorem lt_nextAddress {va stop : Nat} (kind : PacketKind) (header : UInt32) (lt : va < stop)
    (le : stop ≤ maxAddress) : va < nextAddress va kind header := by
  have := kind.length_pos header
  unfold nextAddress
  omega

/-- The packets of `ib` from `va` on, which end before `stop`. Gives the buffer that they chain
into; the packets behind the one that does so are left out. -/
def packets (w : Walk σ) (call : IndirectBuffer → EStateM Error σ Unit) (ibIndex : Nat)
    (ib : IndirectBuffer) (stop : Nat) (le : stop ≤ maxAddress) (va : Nat) :
    EStateM Error σ (Option IndirectBuffer) :=
  if lt : va < stop then do
    let header ← MonadExcept.ofExcept (w.memory.word w.submit va)
    let kind := PacketKind.ofHeader header
    have := lt_nextAddress (PacketKind.ofHeader header) header lt le
    w.emit (.packet ibIndex va kind header)
    match ← w.followPacket call ibIndex ib va kind header with
    | some next => return some next
    | none => w.packets call ibIndex ib stop le (nextAddress va kind header)
  else
    return none
termination_by stop - va

/-- All packets of a buffer. A skipped buffer shows none, and one that runs past the largest address
cannot be read. -/
def content (w : Walk σ) (call : IndirectBuffer → EStateM Error σ Unit) (ibIndex : Nat)
    (ib : IndirectBuffer) : EStateM Error σ (Option IndirectBuffer) :=
  if ib.skip then return none
  else if le : ib.va + ib.sizeInBytes ≤ maxAddress then
    w.packets call ibIndex ib (ib.va + ib.sizeInBytes) le ib.va
  else throw (.memoryRead w.submit ib.va ib.sizeInBytes)

/-- A buffer and the buffers chained to it, at most `links`, up to the end of the last. -/
def chain (w : Walk σ) (call : IndirectBuffer → EStateM Error σ Unit) (ibIndex : Nat) :
    (links : Nat) → (ib : IndirectBuffer) → EStateM Error σ Unit
  | links, ib => do
    match ← w.content call ibIndex ib with
    | none => w.emit (.leave ibIndex ib)
    | some next =>
      match links with
      | 0 => throw (.violation (.chainTooLong next.va))
      | links + 1 => do
        w.emit (.enter ibIndex next .chain)
        w.chain call ibIndex links next

/-- A buffer that has been listed or called, with at most `levels` nested in each other. -/
def buffer (w : Walk σ) (ibIndex : Nat) :
    (levels : Nat) → (ib : IndirectBuffer) → EStateM Error σ Unit
  | 0, ib => throw (.violation (.nestingTooDeep ib.va))
  | levels + 1, ib => w.chain (w.buffer ibIndex levels) ibIndex maxChain ib

def run (w : Walk σ) (ibs : List IndirectBuffer) : EStateM Error σ Unit :=
  ibs.zipIdx.forM fun (ib, ibIndex) => do
    w.emit (.enter ibIndex ib .normal)
    w.buffer ibIndex maxDepth ib

end Walk

end CaptureForest
