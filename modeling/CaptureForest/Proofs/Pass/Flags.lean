import CaptureForest.Proofs.Pass.Owners
import CaptureForest.Proofs.Pass.Typed
import Mathlib.Logic.Relation

/-! # The engine that a packet carries

Packets, registers and fields carry the engine that they were read on. A change gives all that it
adds the engine of the moment (`Pass.Change.new_engine`), and a packet is complete when it is added,
so below a packet all carry its engine (`Pass.Flagged.below`). -/

namespace CaptureForest

/-- The engine that a packet, a register or a field carries. -/
def Aux.constantEngine? : Aux → Option Bool
  | .packet _ _ ce | .regField ce => some ce
  | _ => Option.none

/-- The kinds of nodes that carry an engine. -/
def NodeKind.carriesEngine : NodeKind → Bool
  | .packet | .reg | .field => true
  | _ => false

namespace Nodes

variable {nodes : Nodes} {new : List Node} {n : Nat} {ce : Bool}

/-- The engine that the node `n` carries. -/
def constantEngine? (nodes : Nodes) (n : Nat) : Option Bool :=
  (nodes.aux? n).bind Aux.constantEngine?

theorem constantEngine?_append_old (hn : n < nodes.size) :
    Nodes.constantEngine? (nodes ++ new) n = nodes.constantEngine? n := by
  rw [constantEngine?, aux?_append_old hn, constantEngine?]

/-- Of new nodes on one engine, those that carry an engine carry this one. -/
theorem constantEngine?_append_new {k : NodeKind} (hnew : ∀ node ∈ new, node.kind.carriesEngine →
      node.aux.constantEngine? = some ce) (hn : nodes.size ≤ n)
    (hk : Nodes.kind? (nodes ++ new) n = some k) (hcarries : k.carriesEngine) :
    Nodes.constantEngine? (nodes ++ new) n = some ce := by
  obtain ⟨i, rfl⟩ := Nat.exists_eq_add_of_le hn
  rw [kind?_append_new] at hk
  obtain ⟨node, hi, rfl⟩ := Option.map_eq_some_iff.mp hk
  rw [constantEngine?, aux?, getElem?_append_new, hi]
  exact hnew node (List.mem_of_getElem? hi) hcarries

end Nodes

namespace View

/-- Registers and fields are listed below packets and registers only, and these get no children
later. -/
theorem carries_of_owns {v : View} {a b : NodeKind} (h : v.owns a b) (hb : b = .reg ∨ b = .field) :
    a.carriesEngine ∧ ¬a.adopts ∧ a ≠ .root ∧ a ≠ .engine ∧ b.carriesEngine ∧ ¬b.endsRun := by
  revert h
  rcases hb with rfl | rfl <;> cases v <;> cases a <;> decide

/-- Below a packet there are registers and fields only. -/
theorem owns_of_carries {v : View} {a b : NodeKind} (h : v.owns a b) (ha : a.carriesEngine) :
    b = .reg ∨ b = .field := by
  revert h ha
  cases v <;> cases a <;> cases b <;> decide

end View

namespace Pass

variable {p q : Pass} {n m : Nat}

/-- What a change adds is on the engine of the moment, if it carries an engine. -/
theorem Change.new_engine (hc : p.Change q) : ∃ new : List Node, q.nodes = p.nodes ++ new ∧
    ∀ node ∈ new, node.kind.carriesEngine →
      node.aux.constantEngine? = some p.onConstantEngine := by
  have hadds {r : Pass} {node : Node} (hr : r.nodes = p.nodes ++ [node])
      (hnode : node.kind.carriesEngine = false) : ∃ new : List Node, r.nodes = p.nodes ++ new ∧
        ∀ node ∈ new, node.kind.carriesEngine →
          node.aux.constantEngine? = some p.onConstantEngine := by
    refine ⟨[node], hr, fun node' hmem hcarries => ?_⟩
    rw [List.mem_singleton.mp hmem, hnode] at hcarries
    cases hcarries
  have hsame {r : Pass} (hr : r.nodes = p.nodes) : ∃ new : List Node, r.nodes = p.nodes ++ new ∧
      ∀ node ∈ new, node.kind.carriesEngine →
        node.aux.constantEngine? = some p.onConstantEngine :=
    ⟨[], hr.trans Array.appendList_nil.symm, nofun⟩
  cases hc with
  | submitBegins _ _ hq => exact hadds hq.nodes rfl
  | enters _ hq => exact hadds hq.adds.nodes rfl
  | leaves =>
    obtain ⟨_, _, _, _, _, hleft⟩ := p.left_eq
    exact hsame (by rw [hleft]; rfl)
  | logs _ _ hq =>
    refine ⟨_, hq.adds.nodes, fun node hn _ => ?_⟩
    rcases List.mem_cons.mp hn with rfl | hn
    · rfl
    · obtain ⟨k, line, -, rfl⟩ := of_mem_packetBelow hn
      rfl
  | works _ hq =>
    cases hq with
    | sync _ _ hq | event _ _ hq => exact hadds hq.nodes rfl
    | nothing => exact hsame rfl
  | shares _ hq => exact ⟨[], hq.adds.nodes, nofun⟩
  | obeys _ _ hq =>
    cases hq with
    | beginsBuffer _ hq | endsBuffer _ hq | beginsLabel _ hq | insertsLabel _ hq
      | opensCall _ hq => exact hadds hq.nodes rfl
    | endsLabel => exact hsame rfl
  | endsState _ hq | presents hq => exact hadds hq.nodes rfl
  | marks | clears | sorts | unmarks | submitEnds => exact hsame rfl

/-- Registers and fields carry the engine of their owner. -/
def Flagged (p : Pass) : Prop := ∀ {v a b k}, b ∈ p.owned v a → p.nodes.kind? b = some k →
  k = .reg ∨ k = .field → p.nodes.constantEngine? b = p.nodes.constantEngine? a

theorem Change.flagged (hc : p.Change q) (hp : p.Sound) (hq : q.Sound) (h : p.Flagged) :
    q.Flagged := by
  intro v a b k hmem hb hk
  obtain ⟨ka, kb, hka, hkb, howns, hlt⟩ := hq.arranged.fits hmem
  obtain rfl : k = kb := Option.some.inj (hb.symm.trans hkb)
  obtain ⟨hcarries, hadopts, hroot, hengine, hcarries', hends⟩ := View.carries_of_owns howns hk
  obtain ⟨new, hnodes, hnew⟩ := hc.new_engine
  rcases Nat.lt_or_ge a p.nodes.size with hold | hge
  · -- An owner that was there before was complete.
    rw [hnodes, Nodes.kind?, Nodes.getElem?_append_old hold] at hka
    rw [hc.owned_eq hp hka hadopts hroot hengine] at hmem
    have hlt := hp.arranged.child_lt hmem
    rw [hnodes, Nodes.kind?, Nodes.getElem?_append_old hlt] at hb
    rw [hnodes, Nodes.constantEngine?_append_old hlt, Nodes.constantEngine?_append_old hold]
    exact h hmem hb hk
  · -- What a new node owns is new, too.
    have hge' : p.nodes.size ≤ b := Nat.le_trans hge (Nat.le_of_lt (hlt.resolve_right hends))
    rw [hnodes] at hka hb ⊢
    rw [Nodes.constantEngine?_append_new hnew hge hka hcarries,
      Nodes.constantEngine?_append_new hnew hge' hb hcarries']

/-- Below a packet there are registers and fields only, and all carry its engine. -/
theorem Flagged.below {v : View} {k : NodeKind} (h : p.Flagged) (hp : p.Sound)
    (hn : p.nodes.kind? n = some k) (hk : k.carriesEngine)
    (hm : Relation.TransGen (fun a b => b ∈ p.owned v a) n m) :
    (∃ k, p.nodes.kind? m = some k ∧ (k = .reg ∨ k = .field)) ∧
      p.nodes.constantEngine? m = p.nodes.constantEngine? n := by
  have hstep {a b : Nat} {k : NodeKind} (ha : p.nodes.kind? a = some k) (hk : k.carriesEngine)
      (hb : b ∈ p.owned v a) : (∃ k, p.nodes.kind? b = some k ∧ (k = .reg ∨ k = .field)) ∧
        p.nodes.constantEngine? b = p.nodes.constantEngine? a := by
    obtain ⟨_, kb, hka, hkb, howns, -⟩ := hp.arranged.fits hb
    cases ha.symm.trans hka
    have hkind := View.owns_of_carries howns hk
    exact ⟨⟨kb, hkb, hkind⟩, h hb hkb hkind⟩
  induction hm with
  | single hm => exact hstep hn hk hm
  | tail _ hb ih =>
    obtain ⟨⟨k', hk', hor⟩, hengine⟩ := ih
    obtain ⟨hkind, heq⟩ := hstep hk' (by rcases hor with rfl | rfl <;> rfl) hb
    exact ⟨hkind, heq.trans hengine⟩

end Pass

end CaptureForest
