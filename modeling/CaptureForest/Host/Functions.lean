import CaptureForest.Hierarchy.Build
import CaptureForest.Hierarchy.Dump
import CaptureForest.Host.Term

/-! # Functions for a host

What a host can call. A `Host` holds the hierarchies that it has built so far, and refers to them
by number. `Host.call` checks the name and the arguments of a call before anything is done. -/

namespace CaptureForest

/-- The hierarchies that were built for a host, numbered from 0 on. -/
structure Host where
  hierarchies : Array Hierarchy := #[]

/-- A call that is refused before anything is done. -/
inductive Refusal where
  | undefined
  | badArgument
  deriving DecidableEq, Repr

def Refusal.key : Refusal → String
  | .undefined => "undef"
  | .badArgument => "badarg"

namespace Host

/-- An argument that was read, or the refusal of the call. -/
def argument {α : Type} : Option α → Except Refusal α
  | some a => .ok a
  | none => .error .badArgument

def hierarchy? (host : Host) : Term → Option Hierarchy
  | .ref number => host.hierarchies[number]?
  | _ => none

/-- Builds the hierarchy of a command stream, given as bytes. -/
def buildStream (host : Host) (engine queue : String) (bytes : Bytes) (flattenChains : Bool) :
    Term × Host :=
  match Engine.ofKey? engine, Engine.ofKey? queue with
  | none, _ => (.error (.atom "unknown_engine"), host)
  | _, none => (.error (.atom "unknown_queue"), host)
  | some engine, some queue =>
    if bytes.size % 4 != 0 then (.error (.atom "bad_length"), host)
    else
      match Hierarchy.ofStream { flattenChains } engine queue (Words.ofBytes bytes) with
      | .ok h =>
        (.ok (.ref host.hierarchies.size), { hierarchies := host.hierarchies.push h })
      | .error e => (.ofError e, host)

/-- The answer about a view of a hierarchy, whose name may be unknown. -/
def aboutView (view : String) (answer : View → Term) : Term :=
  match View.ofKey? view with
  | some v => answer v
  | none => .error (.atom "unknown_topology")

/-- The answer about a node of a hierarchy. -/
def aboutNode (h : Hierarchy) (n : Nat) (answer : Node → Term) : Term :=
  match h.node n with
  | .ok node => .ok (answer node)
  | .error e => .ofError e

/-- A question about a hierarchy. Views are named by their words. -/
inductive Question where
  | nodeCount
  | nodeInfo (node : Nat)
  | nodeMetadata (node : Nat)
  | eventNodes
  | hasCallMarker
  | children (view : String) (node : Nat)
  | shared (view : String) (node : Nat)
  | parent (view : String) (node : Nat)
  | next (view : String) (node : Nat)
  | preorder (view : String)
  | dump (view : String) (withShared : Bool)
  deriving DecidableEq, Repr

/-- The question that a function asks, given the arguments behind the hierarchy. -/
def Question.ofTerms (function : String) (args : List Term) : Except Refusal Question :=
  match args with
  | [] =>
    match function with
    | "node_count" => return .nodeCount
    | "event_nodes" => return .eventNodes
    | "has_vulkan_marker" => return .hasCallMarker
    | _ => throw .undefined
  | [a] =>
    match function with
    | "node_info" => return .nodeInfo (← argument a.nat?)
    | "node_metadata" => return .nodeMetadata (← argument a.nat?)
    | "preorder" => return .preorder (← argument a.atom?)
    | _ => throw .undefined
  | [a, b] =>
    match function with
    | "children" => return .children (← argument a.atom?) (← argument b.nat?)
    | "shared_children" => return .shared (← argument a.atom?) (← argument b.nat?)
    | "parent" => return .parent (← argument a.atom?) (← argument b.nat?)
    | "next_node" => return .next (← argument a.atom?) (← argument b.nat?)
    | "dump" => return .dump (← argument a.atom?) (← argument b.bool?)
    | _ => throw .undefined
  | _ => throw .undefined

def Question.answer (h : Hierarchy) : Question → Term
  | .nodeCount => Term.nat h.numNodes
  | .nodeInfo n => aboutNode h n Term.ofNode
  | .nodeMetadata n => aboutNode h n fun node => Term.binary node.metadata
  | .eventNodes => Term.nodes h.events
  | .hasCallMarker => Term.bool h.hasCallMarker
  | .children view n => aboutView view fun v => Term.nodes ((h.forest v).children n)
  | .shared view n => aboutView view fun v => Term.nodes ((h.forest v).shared n)
  | .parent view n => aboutView view fun v => Term.node? ((h.forest v).parent? n)
  | .next view n => aboutView view fun v => Term.node? ((h.forest v).next? n)
  | .preorder view => aboutView view fun v => Term.nodes (h.forest v).preorder
  | .dump view withShared => aboutView view fun v => Term.text (h.dump v withShared)

def call (host : Host) (function : String) (args : List Term) : Except Refusal (Term × Host) :=
  match function, args with
  | "build_from_dwords", [engine, queue, bytes, flattenChains] => do
    let engine ← argument engine.text?
    let queue ← argument queue.text?
    let bytes ← argument bytes.bytes?
    let flattenChains ← argument flattenChains.bool?
    return host.buildStream engine queue bytes flattenChains
  | _, [] => throw .undefined
  | _, subject :: rest => do
    let question ← Question.ofTerms function rest
    let h ← argument (host.hierarchy? subject)
    return (question.answer h, host)

end Host

end CaptureForest
