import CaptureForest.Hierarchy.Basic
import CaptureForest.Text.Bytes

/-! # Terms

The values that a host exchanges with the library. `Term.ofAux` and `Term.ofError` are the forms
that the data of a node and an error have in answers; the other functions make a term or read one
as an argument. -/

namespace CaptureForest

inductive Term where
  | int (value : Int)
  | atom (name : String)
  | binary (bytes : Bytes)
  | list (items : List Term)
  | tuple (items : List Term)
  | ref (number : Nat)
  deriving Repr, Inhabited

namespace Term

/-! ## Making terms -/

def nat (n : Nat) : Term := .int n

def bool (b : Bool) : Term := .atom (if b then "true" else "false")

def text (s : String) : Term := .binary (textBytes s)

/-- The atom that stands for nothing. -/
def nil : Term := .atom "nil"

def nodes (ns : Array Nat) : Term := .list (ns.toList.map nat)

def node? : Option Nat → Term
  | some n => nat n
  | none => nil

def ok (value : Term) : Term := .tuple [.atom "ok", value]

def error (reason : Term) : Term := .tuple [.atom "error", reason]

def ofIbKind : IbKind → Term
  | .normal => .atom "normal"
  | .call => .atom "call"
  | .chain => .atom "chain"

def ofMarkerKind : MarkerKind → Term
  | .beginEnd => .atom "begin_end"
  | .insert => .atom "insert"
  | .barrier => .atom "barrier"
  | .diveMetadata => .atom "dive_metadata"

def ofSyncKind : SyncKind → Term
  | .waitForIdle => .atom "wait_for_idle"
  | .waitForMe => .atom "wait_for_me"
  | .waitRegMem => .atom "wait_reg_mem"
  | .waitMemWrites => .atom "wait_mem_writes"
  | .cacheFlush => .atom "cache_flush"
  | .cacheInvalidate => .atom "cache_invalidate"

def ofAux : Aux → Term
  | .none => nil
  | .submit engine index => .tuple [.atom "submit", text engine.name, nat index]
  | .ib index kind size captured =>
    .tuple [.atom "ib", nat index, ofIbKind kind, nat size, bool captured]
  | .packet address opcode constantEngine =>
    .tuple [.atom "packet", nat address, nat opcode.toNat, bool constantEngine]
  | .regField constantEngine => .tuple [.atom "reg", bool constantEngine]
  | .event id => .tuple [.atom "event", nat id]
  | .marker kind id => .tuple [.atom "marker", ofMarkerKind kind, nat id]
  | .sync s => .tuple [.atom "sync", ofSyncKind s.kind, nat s.info.toNat]

/-- A node: its kind, its description and its data. -/
def ofNode (n : Node) : Term :=
  .tuple [.atom n.kind.key, text n.description, ofAux n.aux]

def ofError (e : Error) : Term :=
  error <| match e with
    | .memoryRead submit va size => .tuple [.atom "memory_read", nat submit, nat va, nat size]
    | .violation cause => .tuple [.atom "invariant_violation", text cause.message]
    | .kindMismatch node _ _ => .tuple [.atom "node_type_mismatch", nat node]
    | .nodeOutOfRange node numNodes =>
      .tuple [.atom "node_out_of_range", nat node, nat numNodes]
    | .unsupportedSubmit engine => .tuple [.atom "unsupported_submit", text engine.name]

/-! ## Reading arguments -/

def bytes? : Term → Option Bytes
  | .binary bytes => some bytes
  | _ => none

/-- A binary that is a text. -/
def text? (t : Term) : Option String := t.bytes?.bind CaptureForest.text?

/-- One of the atoms for truth and falsehood. -/
def bool? : Term → Option Bool
  | .atom "true" => some true
  | .atom "false" => some false
  | _ => none

/-- A number that fits in 64 bits. -/
def nat? : Term → Option Nat
  | .int (.ofNat n) => if n < UInt64.size then some n else none
  | _ => none

def atom? : Term → Option String
  | .atom name => some name
  | _ => none

end Term

end CaptureForest
